import Mathlib.Data.List.TakeDrop
import Mathlib.Data.Nat.Init
import Mathlib.Logic.Function.Basic
import Mathlib.Order.Basic

/-!
# Conflict-ordered execution is serial execution

Operations over a keyed store declare the keys they touch and the keys they write. They are submitted one
after another, and each later *loads* a snapshot of the store and *commits* the keys it writes. The loads and
commits of different operations may interleave in any way, as long as an operation loads only after every
earlier operation it conflicts with has committed.

* `Progress` is the store together with the submitted operations, the snapshots taken and the commits made;
* `Progress.Ordered` is the invariant: conflicting commits respect submission order, every snapshot agrees
  with the serial prefix before its operation, and every key holds the value of the serial prefix that ends
  with its last committed writer;
* `Ordered.submit`, `Ordered.load`, `Ordered.commit` are the rules, and `Ordered.state_eq_serial` says that
  once everything has committed the store is the serial one.
-/

namespace ConflictOrder

variable {K V Op : Type*}

/-- The keys each operation declares: those it may read or write, and those it may write. -/
structure Access (K Op : Type*) where
  touched : Op → List K
  written : Op → List K
  written_subset : ∀ op, written op ⊆ touched op

/-- Two operations conflict when they share a key that at least one of them writes. -/
def Access.Conflict (A : Access K Op) (a b : Op) : Prop :=
  ∃ k, (k ∈ A.touched a ∧ k ∈ A.written b) ∨ (k ∈ A.written a ∧ k ∈ A.touched b)

theorem Access.Conflict.symm {A : Access K Op} {a b : Op} (h : A.Conflict a b) : A.Conflict b a := by
  obtain ⟨k, h | h⟩ := h
  · exact ⟨k, Or.inr h.symm⟩
  · exact ⟨k, Or.inl h.symm⟩

/-- An operation's effect stays inside its declared access: other keys are untouched, and what it writes is a
function of the keys it touches. -/
structure Respects (A : Access K Op) (exec : Op → (K → V) → K → V) : Prop where
  frame : ∀ op s k, k ∉ A.written op → exec op s k = s k
  local_reads : ∀ op s s', (∀ k ∈ A.touched op, s k = s' k) → ∀ k ∈ A.written op, exec op s k = exec op s' k

def serial (exec : Op → (K → V) → K → V) (init : K → V) (ops : List Op) : K → V :=
  ops.foldl (fun s op => exec op s) init

@[simp]
theorem serial_append (exec : Op → (K → V) → K → V) (init : K → V) (ops ops' : List Op) :
    serial exec init (ops ++ ops') = serial exec (serial exec init ops) ops' :=
  List.foldl_append

@[simp]
theorem serial_singleton (exec : Op → (K → V) → K → V) (init : K → V) (op : Op) :
    serial exec init [op] = exec op init := rfl

/-- The store, the operations in submission order, and what has been loaded and committed by index. -/
structure Progress (K V Op : Type*) where
  ops : List Op
  state : K → V
  snapshot : Nat → Option (K → V)
  committed : List Nat

variable {i : Nat}

namespace Progress

def init (s : K → V) : Progress K V Op :=
  { ops := [], state := s, snapshot := fun _ => none, committed := [] }

def submit (p : Progress K V Op) (op : Op) : Progress K V Op :=
  { p with ops := p.ops ++ [op] }

def load (p : Progress K V Op) (i : Nat) : Progress K V Op :=
  { p with snapshot := Function.update p.snapshot i (some p.state) }

/-- Operation `i` executes on its snapshot `s` and writes its declared keys back. -/
def commit [DecidableEq K] (A : Access K Op) (exec : Op → (K → V) → K → V) (p : Progress K V Op) (i : Nat)
    (op : Op) (s : K → V) : Progress K V Op :=
  { p with
    state := fun k => if k ∈ A.written op then exec op s k else p.state k
    committed := p.committed ++ [i] }

theorem submit_ops (p : Progress K V Op) (op : Op) : (p.submit op).ops = p.ops ++ [op] := rfl

theorem load_snapshot_self (p : Progress K V Op) (i : Nat) : (p.load i).snapshot i = some p.state :=
  Function.update_self ..

theorem load_snapshot_of_ne (p : Progress K V Op) {j : Nat} (h : j ≠ i) :
    (p.load i).snapshot j = p.snapshot j :=
  Function.update_of_ne h ..

def Writes (A : Access K Op) (p : Progress K V Op) (i : Nat) (k : K) : Prop :=
  ∃ op, p.ops[i]? = some op ∧ k ∈ A.written op

def Conflicting (A : Access K Op) (p : Progress K V Op) (i j : Nat) : Prop :=
  ∃ a b, p.ops[i]? = some a ∧ p.ops[j]? = some b ∧ A.Conflict a b

/-- `n` cuts the committed writers of `k`: those before `n` have committed and those from `n` on have not. -/
def Cut (A : Access K Op) (p : Progress K V Op) (k : K) (n : Nat) : Prop :=
  ∀ j, p.Writes A j k → (j < n ↔ j ∈ p.committed)

structure Ordered (A : Access K Op) (exec : Op → (K → V) → K → V) (init : K → V) (p : Progress K V Op) : Prop where
  committed_lt : ∀ i ∈ p.committed, i < p.ops.length
  loaded_lt : ∀ i s, p.snapshot i = some s → i < p.ops.length
  loaded_of_committed : ∀ i ∈ p.committed, ∃ s, p.snapshot i = some s
  closed : ∀ i j s, i < j → p.Conflicting A i j → p.snapshot j = some s → i ∈ p.committed
  snapshot_serial : ∀ i op s, p.ops[i]? = some op → p.snapshot i = some s →
    ∀ k ∈ A.touched op, s k = serial exec init (p.ops.take i) k
  state_serial : ∀ k n, n ≤ p.ops.length → p.Cut A k n → p.state k = serial exec init (p.ops.take n) k

end Progress

/-! ### Serial prefixes -/

variable {op : Op}

theorem serial_take_succ (exec : Op → (K → V) → K → V) (init : K → V) {ops : List Op}
    (h : ops[i]? = some op) :
    serial exec init (ops.take (i + 1)) = exec op (serial exec init (ops.take i)) := by
  rw [List.take_add_one, h, Option.toList_some, serial_append, serial_singleton]

theorem serial_take_eq {A : Access K Op} {exec : Op → (K → V) → K → V} (hexec : Respects A exec) (init : K → V)
    {p : Progress K V Op} {k : K} {m n : Nat} (hmn : m ≤ n) (hn : n ≤ p.ops.length)
    (hquiet : ∀ j, m ≤ j → j < n → ¬ p.Writes A j k) :
    serial exec init (p.ops.take n) k = serial exec init (p.ops.take m) k := by
  induction n, hmn using Nat.le_induction with
  | base => rfl
  | succ n hmn ih =>
    have hget : p.ops[n]? = some p.ops[n] := List.getElem?_eq_getElem (by omega)
    rw [serial_take_succ exec init hget, hexec.frame, ih (by omega)]
    · exact fun j hm hj => hquiet j hm (by omega)
    · exact fun hw => hquiet n hmn (by omega) ⟨_, hget, hw⟩

namespace Progress.Ordered

variable {A : Access K Op} {exec : Op → (K → V) → K → V} {s₀ : K → V} {p : Progress K V Op}

theorem start (s₀ : K → V) : (Progress.init s₀ : Progress K V Op).Ordered A exec s₀ where
  committed_lt := by simp [Progress.init]
  loaded_lt := by simp [Progress.init]
  loaded_of_committed := by simp [Progress.init]
  closed := by simp [Progress.init]
  snapshot_serial := by simp [Progress.init]
  state_serial := by simp [Progress.init, serial]

/-! ### Submitting -/

private theorem getElem?_submit (h : i < p.ops.length) :
    (p.submit op).ops[i]? = p.ops[i]? :=
  List.getElem?_append_left h

private theorem lt_of_getElem? {ops : List Op} (h : ops[i]? = some op) : i < ops.length :=
  (List.getElem?_eq_some_iff.mp h).1

private theorem cut_of_submit {k : K} {n : Nat} (h : (p.submit op).Cut A k n) : p.Cut A k n := by
  intro j hj
  obtain ⟨a, ha, hk⟩ := hj
  exact h j ⟨a, (getElem?_submit (lt_of_getElem? ha)).trans ha, hk⟩

/-- Appending an operation keeps the invariant: it has neither loaded nor committed. -/
theorem submit (h : p.Ordered A exec s₀) (hexec : Respects A exec) (op : Op) : (p.submit op).Ordered A exec s₀ where
  committed_lt i hi := by
    have := h.committed_lt i hi
    simp only [Progress.submit, List.length_append, List.length_singleton]
    omega
  loaded_lt i s hs := by
    have := h.loaded_lt i s hs
    simp only [Progress.submit, List.length_append, List.length_singleton]
    omega
  loaded_of_committed := h.loaded_of_committed
  closed i j s hij hc hs := by
    have hj := h.loaded_lt j s hs
    obtain ⟨a, b, ha, hb, hab⟩ := hc
    rw [getElem?_submit (by omega)] at ha
    rw [getElem?_submit hj] at hb
    exact h.closed i j s hij ⟨a, b, ha, hb, hab⟩ hs
  snapshot_serial i a s ha hs k hk := by
    have hi := h.loaded_lt i s hs
    rw [getElem?_submit hi] at ha
    rw [h.snapshot_serial i a s ha hs k hk, submit_ops, List.take_append_of_le_length (Nat.le_of_lt hi)]
  state_serial k n hn hcut := by
    have hlen : (p.submit op).ops.length = p.ops.length + 1 := by simp [Progress.submit]
    rcases Nat.lt_or_ge p.ops.length n with hlt | hle
    · -- the new operation lies below the cut but has not committed, so it cannot write `k`
      have hlast : (p.submit op).ops[p.ops.length]? = some op := by simp [Progress.submit]
      have hquiet : ¬ (p.submit op).Writes A p.ops.length k := by
        intro hw
        have hmem := h.committed_lt _ ((hcut _ hw).mp hlt)
        omega
      have hold : p.Cut A k p.ops.length := by
        intro j hj
        obtain ⟨a, ha, _⟩ := id hj
        have hj' := cut_of_submit hcut j hj
        have := lt_of_getElem? ha
        constructor
        · exact fun _ => hj'.mp (by omega)
        · exact fun _ => by omega
      have hn : n = p.ops.length + 1 := by omega
      have hstep := serial_take_eq hexec s₀ (p := p.submit op) (k := k) (m := p.ops.length) (n := n)
        (by omega) (by omega) (fun j hm hj => by
          have : j = p.ops.length := by omega
          subst this
          exact hquiet)
      rw [hstep, submit_ops, List.take_append_of_le_length (Nat.le_refl _)]
      exact h.state_serial k _ (Nat.le_refl _) hold
    · rw [submit_ops, List.take_append_of_le_length hle]
      exact h.state_serial k n hle (cut_of_submit hcut)

/-! ### Loading -/

/-- An operation may load once every earlier operation it conflicts with has committed. -/
theorem load (h : p.Ordered A exec s₀) (hop : p.ops[i]? = some op) (hnew : p.snapshot i = none)
    (hprior : ∀ j < i, p.Conflicting A j i → j ∈ p.committed) : (p.load i).Ordered A exec s₀ where
  committed_lt := h.committed_lt
  loaded_lt j s hs := by
    rcases eq_or_ne j i with rfl | hne
    · exact lt_of_getElem? hop
    · rw [load_snapshot_of_ne p hne] at hs
      exact h.loaded_lt j s hs
  loaded_of_committed j hj := by
    have hne : j ≠ i := by
      rintro rfl
      obtain ⟨s, hs⟩ := h.loaded_of_committed j hj
      rw [hnew] at hs
      cases hs
    rw [load_snapshot_of_ne p hne]
    exact h.loaded_of_committed j hj
  closed a b s hab hc hs := by
    rcases eq_or_ne b i with rfl | hne
    · exact hprior a hab hc
    · rw [load_snapshot_of_ne p hne] at hs
      exact h.closed a b s hab hc hs
  snapshot_serial j a s ha hs k hk := by
    rcases eq_or_ne j i with rfl | hne
    · rw [load_snapshot_self] at hs
      cases hs
      rw [show (p.load j).ops = p.ops from rfl] at ha ⊢
      refine h.state_serial k j (Nat.le_of_lt (lt_of_getElem? ha)) fun w hw => ⟨fun hlt => ?_, fun hmem => ?_⟩
      · obtain ⟨b, hb, hkb⟩ := hw
        exact hprior w hlt ⟨b, a, hb, ha, k, Or.inr ⟨hkb, hk⟩⟩
      · -- a committed writer from `j` on would have waited for `j`
        by_contra hge
        obtain ⟨b, hb, hkb⟩ := hw
        obtain ⟨s', hs'⟩ := h.loaded_of_committed w hmem
        have hlt : j < w := by
          rcases eq_or_ne w j with rfl | hwj
          · rw [hnew] at hs'
            cases hs'
          · omega
        have hj := h.closed j w s' hlt ⟨a, b, ha, hb, k, Or.inl ⟨hk, hkb⟩⟩ hs'
        obtain ⟨s'', hs''⟩ := h.loaded_of_committed j hj
        rw [hnew] at hs''
        cases hs''
    · rw [load_snapshot_of_ne p hne] at hs
      exact h.snapshot_serial j a s ha hs k hk
  state_serial := h.state_serial

/-! ### Committing -/

/-- A loaded operation may commit at any later time. -/
theorem commit [DecidableEq K] (h : p.Ordered A exec s₀) (hexec : Respects A exec) {s : K → V}
    (hop : p.ops[i]? = some op) (hs : p.snapshot i = some s) (hnew : i ∉ p.committed) :
    (p.commit A exec i op s).Ordered A exec s₀ where
  committed_lt j hj := by
    rcases List.mem_append.mp hj with hj | hj
    · exact h.committed_lt j hj
    · rw [List.mem_singleton.mp hj]
      exact lt_of_getElem? hop
  loaded_lt := h.loaded_lt
  loaded_of_committed j hj := by
    rcases List.mem_append.mp hj with hj | hj
    · exact h.loaded_of_committed j hj
    · rw [List.mem_singleton.mp hj]
      exact ⟨s, hs⟩
  closed a b s' hab hc hs' := List.mem_append_left _ (h.closed a b s' hab hc hs')
  snapshot_serial := h.snapshot_serial
  state_serial k n hn hcut := by
    have hold : ∀ j, j ≠ i → p.Writes A j k → (j < n ↔ j ∈ p.committed) := by
      intro j hne hj
      have := hcut j hj
      simpa [Progress.commit, hne] using this
    by_cases hk : k ∈ A.written op
    · have hi : i < n := (hcut i ⟨op, hop, hk⟩).mpr (by simp [Progress.commit])
      -- a writer between `i` and the cut has committed, yet it had to wait for `i`
      have hquiet : ∀ j, i + 1 ≤ j → j < n → ¬ p.Writes A j k := by
        intro j hij hjn hw
        have hj := (hold j (by omega) hw).mp hjn
        obtain ⟨b, hb, hkb⟩ := hw
        obtain ⟨s', hs'⟩ := h.loaded_of_committed j hj
        exact hnew (h.closed i j s' (by omega) ⟨op, b, hop, hb, k, Or.inr ⟨hk, A.written_subset b hkb⟩⟩ hs')
      have hserial := serial_take_eq (p := p) hexec s₀ (m := i + 1) hi hn hquiet
      have hlocal := hexec.local_reads op s _ (h.snapshot_serial i op s hop hs) k hk
      simp only [Progress.commit, if_pos hk]
      rw [hserial, serial_take_succ exec s₀ hop, hlocal]
    · simp only [Progress.commit, if_neg hk]
      refine h.state_serial k n hn fun j hj => hold j ?_ hj
      rintro rfl
      obtain ⟨b, hb, hkb⟩ := hj
      rw [hop] at hb
      cases hb
      exact hk hkb

/-- Once every submitted operation has committed, the store is that of the serial execution. -/
theorem state_eq_serial (h : p.Ordered A exec s₀) (hall : ∀ i < p.ops.length, i ∈ p.committed) :
    p.state = serial exec s₀ p.ops := by
  funext k
  have hcut : p.Cut A k p.ops.length := fun j _ => ⟨hall j, h.committed_lt j⟩
  rw [h.state_serial k p.ops.length (Nat.le_refl _) hcut, List.take_length]

end Progress.Ordered

end ConflictOrder
