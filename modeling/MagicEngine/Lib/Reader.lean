import Mathlib.Data.List.Infix
import Mathlib.Tactic.Linarith

/-!
# Readers of a stream

A reader takes values from the front of a stream that may end at any point. It fails with `io` when the stream is too
short and with `invalid` when what it has read cannot be continued. An incremental reader reads the same when more of
the stream arrives (`Incremental`); of a stream that was cut it then reads an initial part of what it reads of the whole
(`all_take_isPrefix`).
-/

namespace StreamReader

inductive ReadError where
  | io
  | invalid
deriving DecidableEq, Repr

abbrev Reader (β α : Type) : Type := StateT (List β) (Except ReadError) α

variable {β α γ : Type}

def take (n : Nat) : Reader β (List β) := fun stream =>
  if stream.length < n then .error .io else .ok (stream.take n, stream.drop n)

/-- At least `n` items are read, and what was read does not depend on what follows. -/
structure Incremental (n : Nat) (r : Reader β α) : Prop where
  read : ∀ ⦃stream a rest⦄, r stream = .ok (a, rest) →
    rest.length + n ≤ stream.length ∧ ∀ more, r (stream ++ more) = .ok (a, rest ++ more)

theorem incremental_take (n : Nat) : Incremental n (take n : Reader β (List β)) where
  read stream a rest h := by
    unfold take at h
    split at h
    · cases h
    · next hlength =>
      cases h
      have hle : n ≤ stream.length := Nat.le_of_not_lt hlength
      refine ⟨by rw [List.length_drop]; omega, fun more => ?_⟩
      rw [take, if_neg (by rw [List.length_append]; omega), List.take_append_of_le_length hle,
        List.drop_append_of_le_length hle]

theorem incremental_pure (a : α) : Incremental 0 (pure a : Reader β α) where
  read stream b rest h := by
    cases h
    exact ⟨le_rfl, fun more => rfl⟩

variable {n : Nat} {r : Reader β α}

theorem Incremental.of_zero (h : Incremental n r) : Incremental 0 r where
  read _ _ _ hread := ⟨by have := (h.read hread).1; omega, (h.read hread).2⟩

theorem Incremental.bind {m : Nat} {f : α → Reader β γ} (h : Incremental n r)
    (hf : ∀ a, Incremental m (f a)) : Incremental n (r >>= f) where
  read stream c rest hread := by
    cases hr : r stream with
    | error e =>
      simp only [Bind.bind, StateT.bind, Except.bind, hr] at hread
      cases hread
    | ok result =>
      obtain ⟨a, middle⟩ := result
      simp only [Bind.bind, StateT.bind, Except.bind, hr] at hread
      obtain ⟨hlength, hmore⟩ := h.read hr
      obtain ⟨hlength', hmore'⟩ := (hf a).read hread
      refine ⟨by omega, fun more => ?_⟩
      simp only [Bind.bind, StateT.bind, Except.bind, hmore, hmore']

theorem Incremental.map (h : Incremental n r) (f : α → γ) : Incremental n (f <$> r) := by
  have hbind : f <$> r = r >>= fun a => pure (f a) := (bind_pure_comp f r).symm
  rw [hbind]
  exact h.bind fun a => incremental_pure (f a)

/-! ### Reading on -/

/-- What is read of a stream until the reader fails, in at most `fuel` reads. -/
def allWithin (r : Reader β α) : Nat → List β → List α
  | 0, _ => []
  | fuel + 1, stream =>
    match r stream with
    | .ok (a, rest) => a :: allWithin r fuel rest
    | .error _ => []

/-- Everything that is read of a stream; each read takes something. -/
def all (r : Reader β α) (stream : List β) : List α := allWithin r stream.length stream

/-- The values `as` were read and `rest` is left. -/
inductive Reads (r : Reader β α) : List β → List α → List β → Prop where
  | nil (stream : List β) : Reads r stream [] stream
  | snoc {stream middle rest : List β} {as : List α} {a : α} (h : Reads r stream as middle)
      (hread : r middle = .ok (a, rest)) : Reads r stream (as ++ [a]) rest

variable {n : Nat} {stream rest : List β} {as : List α}

theorem allWithin_of_le {fuel fuel' : Nat} (h : Incremental (n + 1) r) (hfuel : stream.length ≤ fuel)
    (hfuel' : stream.length ≤ fuel') : allWithin r fuel stream = allWithin r fuel' stream := by
  induction fuel generalizing stream fuel' with
  | zero =>
    have hnil : stream = [] := List.length_eq_zero_iff.mp (by omega)
    cases fuel' with
    | zero => rfl
    | succ fuel' =>
      rw [allWithin, allWithin]
      split
      · next hread =>
        have := (h.read hread).1
        rw [hnil, List.length_nil] at this
        omega
      · rfl
  | succ fuel ih =>
    cases fuel' with
    | zero =>
      rw [allWithin, allWithin]
      split
      · next hread =>
        have := (h.read hread).1
        omega
      · rfl
    | succ fuel' =>
      rw [allWithin, allWithin]
      split
      · next hread =>
        have := (h.read hread).1
        exact congrArg (_ :: ·) (ih (by omega) (by omega))
      · rfl

theorem all_of_ok (h : Incremental (n + 1) r) (hread : r stream = .ok (a, rest)) :
    all r stream = a :: all r rest := by
  have hlength := (h.read hread).1
  obtain ⟨fuel, hfuel⟩ : ∃ fuel, stream.length = fuel + 1 := ⟨stream.length - 1, by omega⟩
  rw [all, hfuel, allWithin, hread]
  exact congrArg (a :: ·) (allWithin_of_le h (by omega) le_rfl)

theorem all_of_error {e : ReadError} (hread : r stream = .error e) : all r stream = [] := by
  rw [all]
  cases stream.length with
  | zero => rfl
  | succ fuel => rw [allWithin, hread]

theorem Reads.all_eq (h : Incremental (n + 1) r) (hreads : Reads r stream as rest) :
    all r stream = as ++ all r rest := by
  induction hreads with
  | nil => rfl
  | snoc _ hread ih => rw [ih, all_of_ok h hread, List.append_assoc, List.singleton_append]

theorem all_isPrefix_append (h : Incremental (n + 1) r) (more : List β) : all r stream <+: all r (stream ++ more) := by
  induction hlength : stream.length using Nat.strongRecOn generalizing stream with
  | ind length ih =>
    cases hread : r stream with
    | error e =>
      rw [all_of_error hread]
      exact List.nil_prefix
    | ok result =>
      obtain ⟨a, rest⟩ := result
      obtain ⟨hrest, hmore⟩ := h.read hread
      rw [all_of_ok h hread, all_of_ok h (hmore more)]
      exact List.prefix_cons_inj a |>.mpr (ih rest.length (by omega) rfl)

theorem all_take_isPrefix (h : Incremental (n + 1) r) (cut : Nat) : all r (stream.take cut) <+: all r stream := by
  have hprefix : all r (stream.take cut) <+: _ := all_isPrefix_append h (stream.drop cut)
  rwa [List.take_append_drop] at hprefix

end StreamReader
