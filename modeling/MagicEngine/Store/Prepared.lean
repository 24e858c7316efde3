import MagicEngine.Store.WellFormed

/-!
# Prepared batches

What holds of a batch when it reaches `store`. Preparing it has changed shadow images only, so the store is as
well formed as before and reads the same (`read_shadowOnly`), and every entry fits the index: a borrowed one views the
span of its key, at the sequence the span still has, and an indexed account that changed its mode or owner is marked
(`prepare_spec`).
-/

namespace MagicEngine

open Regions

/-! ### Changes to shadow images -/

def ShadowOnly (m m' : Memory) : Prop :=
  ∀ o, m' o = m o ∨ ∃ s img, m o = some s ∧ m' o = some (s.setImage (!activeSide s.sequence) img)

namespace ShadowOnly

variable {m m' m'' : Memory} {o : Nat} {s : Span}

theorem refl (m : Memory) : ShadowOnly m m := fun _ => .inl rfl

theorem span (h : ShadowOnly m m') (hs : m o = some s) :
    ∃ s', m' o = some s' ∧ s'.sequence = s.sequence ∧ s'.units = s.units ∧ s'.pubkey = s.pubkey ∧
      s'.active = s.active := by
  rcases h o with heq | ⟨s₀, img, hs₀, heq⟩
  · exact ⟨s, heq.trans hs, rfl, rfl, rfl, rfl⟩
  · cases hs.symm.trans hs₀
    exact ⟨_, heq, by simp, by simp, by simp, Span.active_setImage_shadow s img⟩

theorem trans (h : ShadowOnly m m') (h' : ShadowOnly m' m'') : ShadowOnly m m'' := by
  intro o
  rcases h' o with heq' | ⟨s', img', hs', heq'⟩
  · rw [heq']
    exact h o
  · rcases h o with heq | ⟨s, img, hs, heq⟩
    · exact .inr ⟨s', img', heq.symm.trans hs', heq'⟩
    · cases heq.symm.trans hs'
      refine .inr ⟨s, img', hs, ?_⟩
      rw [heq', Span.sequence_setImage, Span.setImage_setImage]

theorem map_eq {β : Type} (h : ShadowOnly m m') {f : Span → β}
    (hf : ∀ s img, f (s.setImage (!activeSide s.sequence) img) = f s) (o : Nat) : (m' o).map f = (m o).map f := by
  rcases h o with heq | ⟨s, img, hs, heq⟩
  · rw [heq]
  · rw [heq, hs, Option.map_some, Option.map_some, hf]

theorem units (h : ShadowOnly m m') (o : Nat) : m'.span o = m.span o :=
  congrArg (Option.getD · 0) (h.map_eq (fun s _ => Span.units_setImage s _ _) o)

end ShadowOnly

variable {m : Memory}

theorem Loaded.shadowOnly {m₀ : Memory} {base : AccountCore} {home : Option Nat} {a : StoredAccount}
    (h : Loaded m₀ base home m a) : ShadowOnly m₀ m := by
  intro o
  by_cases hhome : home = some o
  · exact .inr (h.shadow o hhome)
  · exact .inl (h.elsewhere o hhome)

/-! ### Loading -/

namespace PersistedStore

variable {p : PersistedStore} {key : Pubkey}

def find (key : Pubkey) (p : PersistedStore) : Option OwnedAccount :=
  (p.index.accounts.lookup key).bind fun data => (p.mem data.offset).map Span.active

theorem find_of_lookup {data : OwnerAndOffset} {s : Span} (h : p.index.accounts.lookup key = some data)
    (hs : p.mem data.offset = some s) : p.find key = some s.active := by
  simp [find, h, hs]

theorem find_eq_none (h : p.WellFormed) : p.find key = none ↔ p.index.accounts.lookup key = none := by
  constructor
  · intro hfind
    cases hk : p.index.accounts.lookup key with
    | none => rfl
    | some data =>
      obtain ⟨s, hs, -⟩ := h.indexed key data hk
      rw [find_of_lookup hk hs] at hfind
      cases hfind
  · intro hk
    simp [find, hk]

theorem WellFormed.shadowOnly (h : p.WellFormed) (hm : ShadowOnly p.mem m) :
    WellFormed { p with mem := m } where
  indexed key data hk := by
    obtain ⟨s, hs, hpubkey, hmode, howner⟩ := h.indexed key data hk
    obtain ⟨s', hs', -, -, hpubkey', hactive⟩ := hm.span hs
    exact ⟨s', hs', hpubkey'.trans hpubkey, hactive ▸ hmode, hactive ▸ howner⟩
  exact := h.exact
  layout := by
    have hheld := @held_congr p { p with mem := m } (fun _ => rfl) (fun _ => Iff.rfl) hm.units
    exact hheld ▸ h.layout
  fits key data s hk hs := by
    obtain ⟨s₀, hs₀, -⟩ := h.indexed key data hk
    obtain ⟨s', hs', -, -, -, hactive⟩ := hm.span hs₀
    cases hs.symm.trans hs'
    rw [hactive]
    exact h.fits key data s₀ hk hs₀

end PersistedStore

structure Prepared (p : PersistedStore) (entry : AccountEntry) : Prop where
  view : ∀ b, entry.2.cow = .borrowed b → ∃ data s, p.index.accounts.lookup entry.1 = some data ∧
    data.offset = b.offset ∧ p.mem b.offset = some s ∧ b.version = s.sequence ∧
    b.side = (activeSide s.sequence != entry.2.dirty)
  unmarked : ∀ data s, p.index.accounts.lookup entry.1 = some data → p.mem data.offset = some s →
    Unmarked s.active.core entry.2.markers (entry.2.image p.mem).core
  fits : ∀ b, entry.2.cow = .borrowed b → (entry.2.image p.mem).Fits

theorem Prepared.transfer {p q : PersistedStore} {entry : AccountEntry} (h : Prepared p entry)
    (hlookup : q.index.accounts.lookup entry.1 = p.index.accounts.lookup entry.1)
    (hmem : ∀ data, p.index.accounts.lookup entry.1 = some data → q.mem data.offset = p.mem data.offset) :
    Prepared q entry ∧ entry.2.image q.mem = entry.2.image p.mem := by
  have himage : entry.2.image q.mem = entry.2.image p.mem := by
    cases hcow : entry.2.cow with
    | owned account => simp [StoredAccount.image, hcow]
    | borrowed b =>
      obtain ⟨data, s, hk, ho, -⟩ := h.view b hcow
      simp [StoredAccount.image, hcow, BorrowedAccount.image, ← ho, hmem data hk]
  refine ⟨⟨?_, ?_, himage ▸ h.fits⟩, himage⟩
  · intro b hb
    obtain ⟨data, s, hk, ho, hs, hrest⟩ := h.view b hb
    refine ⟨data, s, hlookup.trans hk, ho, ?_, hrest⟩
    rw [← ho, hmem data hk, ho]
    exact hs
  · intro data s hk hs
    rw [hlookup] at hk
    rw [hmem data hk] at hs
    rw [himage]
    exact h.unmarked data s hk hs

namespace AccountsDb

/-- Both backends are well formed and no key is in both; volatile accounts need no persistence and are not closed. -/
structure WellFormed (db : AccountsDb) : Prop where
  persisted : db.persisted.WellFormed
  exclusive : ∀ key a, db.volatile.accounts.lookup key = some a →
    db.persisted.index.accounts.lookup key = none ∧ a.core.mode.requiresPersistence = false ∧ a.core.mode ≠ .closed

theorem BorrowedAccount.image_init {o : Nat} {s : Span} (hs : m o = some s) :
    (BorrowedAccount.init m o).image m = s.active := by
  simp [BorrowedAccount.init, BorrowedAccount.image, hs, Span.active]

variable {db : AccountsDb} {key : Pubkey}

theorem read_eq_of_span (h : ∀ data, db.persisted.index.accounts.lookup key = some data → (db.mem data.offset).isSome) :
    db.read key = (db.volatile.accounts.lookup key).or (db.persisted.find key) := by
  unfold read load
  cases db.volatile.accounts.lookup key with
  | some a => rfl
  | none =>
    cases hk : db.persisted.index.accounts.lookup key with
    | none => simp [PersistedStore.find, hk]
    | some data =>
      obtain ⟨s, hs⟩ := Option.isSome_iff_exists.mp (h data hk)
      rw [PersistedStore.find_of_lookup hk hs]
      simp [StoredAccount.image, BorrowedAccount.image_init hs]

theorem read_eq (h : db.WellFormed) : db.read key = (db.volatile.accounts.lookup key).or (db.persisted.find key) :=
  read_eq_of_span fun data hk => by
    obtain ⟨s, hs, -⟩ := h.persisted.indexed key data hk
    exact Option.isSome_iff_exists.mpr ⟨s, hs⟩

private theorem load_loaded (h : db.WellFormed) (key : Pubkey) :
    ∃ base home, Loaded db.mem base home db.mem ((db.load key).getD { cow := .owned {} }) ∧
      home = (db.persisted.index.accounts.lookup key).map (·.offset) ∧
      ∀ o s, home = some o → db.mem o = some s → base = s.active.core := by
  unfold load
  cases hv : db.volatile.accounts.lookup key with
  | some a =>
    refine ⟨a.core, none, ⟨nofun, fun _ _ => rfl, nofun, ⟨fun _ => rfl, fun _ => rfl⟩, nofun⟩, ?_, nofun⟩
    rw [(h.exclusive key a hv).1]
    rfl
  | none =>
    cases hk : db.persisted.index.accounts.lookup key with
    | none => exact ⟨_, none, ⟨nofun, fun _ _ => rfl, nofun, ⟨fun _ => rfl, fun _ => rfl⟩, nofun⟩, rfl, nofun⟩
    | some data =>
      obtain ⟨s, hs, -⟩ := h.persisted.indexed key data hk
      have hs : db.mem data.offset = some s := hs
      refine ⟨s.active.core, some data.offset, ⟨?_, fun _ _ => rfl, ?_, ?_, ?_⟩, rfl, ?_⟩
      · rintro b ⟨rfl⟩
        refine ⟨rfl, s, hs, ?_⟩
        simp [BorrowedAccount.init, hs, StoredAccount.dirty, DirtyMarkers.any]
      · rintro o ⟨rfl⟩
        exact ⟨s, _, hs, by rw [Span.setImage_image]; exact hs⟩
      · simp [StoredAccount.image, BorrowedAccount.image_init hs, Unmarked]
      · rintro b ⟨rfl⟩
        show ((BorrowedAccount.init db.mem data.offset).image db.mem).Fits
        rw [BorrowedAccount.image_init hs]
        exact h.persisted.fits key data s hk hs
      · rintro o s' ⟨rfl⟩ hs'
        rw [Option.some.inj (hs.symm.trans hs')]

private theorem change_spec (h : db.WellFormed) (key : Pubkey) (ops : List AccountOp) :
    ∃ m, (db.change key ops).1 = { db with persisted.mem := m } ∧ ShadowOnly db.mem m ∧
      (∀ o, (db.persisted.index.accounts.lookup key).map (·.offset) ≠ some o → m o = db.mem o) ∧
      (db.change key ops).2.1 = key ∧ Prepared { db.persisted with mem := m } (db.change key ops).2 := by
  obtain ⟨base, home, hload, hhome, hbase⟩ := load_loaded h key
  have hloaded := hload.applyAll ops
  have hchange : db.change key ops =
      let r := AccountOp.applyAll db.mem ((db.load key).getD { cow := .owned {} }) ops
      ({ db with persisted.mem := r.1 }, key, r.2) := rfl
  rw [hchange]
  generalize AccountOp.applyAll db.mem ((db.load key).getD { cow := .owned {} }) ops = r at hloaded
  obtain ⟨m, a⟩ := r
  refine ⟨m, rfl, hloaded.shadowOnly, fun o ho => hloaded.elsewhere o (hhome ▸ ho), rfl, ⟨?_, ?_, hloaded.fits⟩⟩
  · intro b hb
    obtain ⟨s, img, hs, hm, hv, hside⟩ := hloaded.span_at hb
    obtain ⟨data, hk, ho⟩ := Option.map_eq_some_iff.mp (hhome.symm.trans (hloaded.view b hb).1)
    exact ⟨data, _, hk, ho, hm, by rw [hv, Span.sequence_setImage], by rw [hside, Span.sequence_setImage]⟩
  · intro data s hk hs
    have hk : db.persisted.index.accounts.lookup key = some data := hk
    have ho : home = some data.offset := by
      rw [hhome, hk]
      rfl
    obtain ⟨s₀, img, hs₀, hm⟩ := hloaded.shadow _ ho
    cases hs.symm.trans hm
    rw [Span.active_setImage_shadow, ← hbase _ _ ho hs₀]
    exact hloaded.unmarked

theorem WellFormed.shadowOnly (h : db.WellFormed) (hm : ShadowOnly db.mem m) :
    WellFormed { db with persisted.mem := m } where
  persisted := h.persisted.shadowOnly hm
  exclusive := h.exclusive

/-- Preparing a batch: shadow images of its own accounts change, and every entry fits. -/
theorem prepare_spec {batch : List (Pubkey × List AccountOp)} (h : db.WellFormed) (hnodup : (batch.map Prod.fst).Nodup) :
    ∃ m, (db.prepare batch).1 = { db with persisted.mem := m } ∧ ShadowOnly db.mem m ∧
      (∀ key data, key ∉ batch.map Prod.fst → db.persisted.index.accounts.lookup key = some data →
        m data.offset = db.mem data.offset) ∧
      (db.prepare batch).2.map Prod.fst = batch.map Prod.fst ∧
      ∀ entry ∈ (db.prepare batch).2, Prepared { db.persisted with mem := m } entry := by
  induction batch generalizing db with
  | nil => exact ⟨db.mem, rfl, .refl _, fun _ _ _ _ => rfl, rfl, fun _ he => absurd he List.not_mem_nil⟩
  | cons change rest ih =>
    obtain ⟨key, ops⟩ := change
    obtain ⟨hkey, hrest⟩ := List.nodup_cons.mp hnodup
    obtain ⟨m₁, hdb₁, hshadow₁, helse₁, hfst, hprepared⟩ := change_spec h key ops
    have hwf₁ := h.shadowOnly hshadow₁
    obtain ⟨m, hdb, hshadow, helse, hkeys, hentries⟩ := ih hwf₁ hrest
    have hprepare : db.prepare ((key, ops) :: rest) =
        ((AccountsDb.prepare { db with persisted.mem := m₁ } rest).1,
          (db.change key ops).2 :: (AccountsDb.prepare { db with persisted.mem := m₁ } rest).2) := by
      rw [← hdb₁]
      rfl
    rw [hprepare]
    refine ⟨m, hdb, hshadow₁.trans hshadow, ?_, ?_, ?_⟩
    · intro k data hk hdata
      obtain ⟨hne, hk⟩ := List.mem_cons.not.mp hk |> not_or.mp
      refine (helse k data hk hdata).trans (helse₁ _ fun heq => hne ?_)
      -- another key at the same offset would be this one
      obtain ⟨d, hd, ho⟩ := Option.map_eq_some_iff.mp heq
      exact h.persisted.distinct _ _ _ _ hdata hd ho.symm
    · rw [List.map_cons, hkeys, hfst]
      rfl
    · intro entry hentry
      rcases List.mem_cons.mp hentry with rfl | hmem
      · refine (hprepared.transfer (q := { db.persisted with mem := m }) rfl fun data hdata => ?_).1
        rw [hfst] at hdata
        exact helse key data hkey hdata
      · exact hentries entry hmem

theorem read_shadowOnly (h : db.WellFormed) (hm : ShadowOnly db.mem m) (key : Pubkey) :
    AccountsDb.read key { db with persisted.mem := m } = db.read key := by
  have hfind : PersistedStore.find key { db.persisted with mem := m } = db.persisted.find key := by
    simp only [PersistedStore.find, hm.map_eq Span.active_setImage_shadow]
    rfl
  rw [read_eq (h.shadowOnly hm), read_eq h, hfind]

end AccountsDb

end MagicEngine
