import MagicEngine.Encoding
import MagicEngine.Node.Accounts

/-!
# Sysvars, stored and cached

The sysvar accounts as bytes: what a fresh store is seeded with (`seed_sysvars` in `keeper/src/builder.rs`), what a
finalized block and a reset make of them (`update_sysvars`, `apply_reset`), what a starting keeper reads back, and the
buffers an executor exposes to programs (`solana/program-runtime/src/sysvar_cache.rs`).

`Seeded` is the shape every store keeps: each of the six sysvars is a runtime account owned by the sysvar program whose
data is exactly as long as its encoding, so that writing a new value replaces the old one altogether.
-/

namespace MagicEngine

open Codec

namespace Processor

inductive Sysvar where
  | clock
  | epochSchedule
  | epochRewards
  | rent
  | slotHashes
  | lastRestartSlot
deriving DecidableEq, Repr

def epochScheduleId : Pubkey := ⟨0x06a7d51718dc3fee02d3e47f0100f8b054f7942e60591e3f508719a805000000#256⟩

def epochRewardsId : Pubkey := ⟨0x06a7d51718dc3fee02a558bf83ce66e144422a1c34950b27c1869b5a9c000000#256⟩

def lastRestartSlotId : Pubkey := ⟨0x06a7d5171906dde1cd3f947dcab4c8f4f4f51bad0f9813b800d289471fc00000#256⟩

def Sysvar.id : Sysvar → Pubkey
  | clock => clockId
  | epochSchedule => epochScheduleId
  | epochRewards => epochRewardsId
  | rent => rentId
  | slotHashes => slotHashesId
  | lastRestartSlot => lastRestartSlotId

theorem Sysvar.id_injective : Function.Injective Sysvar.id := by
  intro s s' h
  cases s <;> cases s' <;> first | rfl | exact absurd h (by decide)

/-! ### Stored accounts -/

abbrev Accounts : Type := Pubkey → Option OwnedAccount

namespace Accounts

def store (m : Accounts) : List (Pubkey × OwnedAccount) → Accounts
  | [] => m
  | (key, a) :: rest => store (Function.update m key (if a.core.mode = .closed then none else some a)) rest

def features (m : Accounts) (key : Pubkey) : Bool :=
  (m key).any fun a => a.core.owner == featureGateId && a.core.mode == .runtime

def sysvarData (m : Accounts) (s : Sysvar) : Option Bytes := (m s.id).map (·.data)

theorem store_of_not_mem {m : Accounts} {entries : List (Pubkey × OwnedAccount)} {key : Pubkey}
    (h : ∀ entry ∈ entries, entry.1 ≠ key) : m.store entries key = m key := by
  induction entries generalizing m with
  | nil => rfl
  | cons entry rest ih =>
    obtain ⟨hhead, hrest⟩ := List.forall_mem_cons.mp h
    rw [store, ih hrest, Function.update_of_ne hhead.symm]

theorem store_append (m : Accounts) (entries entries' : List (Pubkey × OwnedAccount)) :
    m.store (entries ++ entries') = (m.store entries).store entries' := by
  induction entries generalizing m with
  | nil => rfl
  | cons entry rest ih => exact ih _

end Accounts

/-- `serialize_data` writes over the start of the data. -/
def serializeData (a : OwnedAccount) (bytes : Bytes) : Option OwnedAccount :=
  if bytes.length ≤ a.data.length then some { a with data := bytes ++ a.data.drop bytes.length } else none

theorem serializeData_eq {a : OwnedAccount} {bytes : Bytes} (h : bytes.length = a.data.length) :
    serializeData a bytes = some { a with data := bytes } := by
  rw [serializeData, if_pos (le_of_eq h), h, List.drop_length, List.append_nil]

section SlotHashes

variable {hashes : List (Nat × Hash)}

theorem length_addSlotHash (slot : Nat) (hash : Hash)
    (h : hashes.length = slothashEntries) : (addSlotHash hashes slot hash).length = slothashEntries := by
  have hsplit := congrArg List.length (List.takeWhile_append_dropWhile (p := fun e => decide (slot < e.1)) (l := hashes))
  rw [List.length_append, h] at hsplit
  unfold addSlotHash
  simp only [List.length_take, List.length_append, List.length_cons]
  split
  · next hnil =>
    rw [hnil, List.length_nil] at hsplit
    rw [List.length_nil]
    omega
  · next entry tail hcons =>
    rw [hcons, List.length_cons] at hsplit
    split
    · omega
    · rw [hcons, List.length_cons]
      omega

/-- A block above all recorded slots goes on top. -/
theorem addSlotHash_of_lt {slot : Nat} (hash : Hash)
    (h : ∀ entry ∈ hashes, entry.1 < slot) : addSlotHash hashes slot hash = ((slot, hash) :: hashes).take slothashEntries := by
  cases hashes with
  | nil => rfl
  | cons entry hashes =>
    have hlt : entry.1 < slot := h entry List.mem_cons_self
    have hhead : decide (slot < entry.1) = false := decide_eq_false (by omega)
    simp [addSlotHash, hhead, hlt.ne]

end SlotHashes

/-! ### Encodings -/

/-- `Rent`; the threshold is kept as its eight bytes. -/
structure Rent where
  lamportsPerByte : Nat
  exemptionThreshold : UInt64
  burnPercent : UInt8
deriving DecidableEq, Repr

/-- The serialization of the sysvar types, which is library code. Encodings of one type have one length, that of the
slot hashes by their number, and what was encoded is read back with its integers as `u64`. -/
class SysvarCodec where
  encodeClock : Clock → Bytes
  encodeRent : Rent → Bytes
  encodeSlotHashes : List (Nat × Hash) → Bytes
  /-- A schedule of so many slots to an epoch, without warmup. -/
  encodeEpochSchedule : Nat → Bytes
  /-- `EpochRewards::default()`. -/
  defaultEpochRewards : Bytes
  /-- `LastRestartSlot::default()`. -/
  defaultLastRestartSlot : Bytes
  readClock : Bytes → Option Clock
  /-- The rate is all a keeper keeps of the rent. -/
  readRent : Bytes → Option Nat
  readSlotHashes : Bytes → Option (List (Nat × Hash))
  decodesEpochSchedule : Bytes → Bool
  decodesEpochRewards : Bytes → Bool
  decodesLastRestartSlot : Bytes → Bool
  length_encodeClock : ∀ clock clock', (encodeClock clock).length = (encodeClock clock').length
  length_encodeSlotHashes : ∀ hashes hashes', hashes.length = hashes'.length →
    (encodeSlotHashes hashes).length = (encodeSlotHashes hashes').length
  length_encodeRent : ∀ rent, (encodeRent rent).length = 17
  isSome_readClock : ∀ clock, (readClock (encodeClock clock)).isSome
  readRent_encodeRent : ∀ rent, readRent (encodeRent rent) = some (rent.lamportsPerByte % 2 ^ 64)
  encodeRent_mod : ∀ rent : Rent,
    encodeRent { rent with lamportsPerByte := rent.lamportsPerByte % 2 ^ 64 } = encodeRent rent
  readSlotHashes_encodeSlotHashes : ∀ hashes, hashes.length ≤ slothashEntries →
    readSlotHashes (encodeSlotHashes hashes) = some (hashes.map fun entry => (entry.1 % 2 ^ 64, entry.2))
  decodesEpochSchedule_encode : ∀ slots, decodesEpochSchedule (encodeEpochSchedule slots) = true
  decodesEpochRewards_default : decodesEpochRewards defaultEpochRewards = true
  decodesLastRestartSlot_default : decodesLastRestartSlot defaultLastRestartSlot = true

open SysvarCodec

variable [SysvarCodec]

/-- Deserialization succeeds. -/
def Sysvar.decodes : Sysvar → Bytes → Bool
  | clock, data => (readClock data).isSome
  | epochSchedule, data => decodesEpochSchedule data
  | epochRewards, data => decodesEpochRewards data
  | rent, data => (readRent data).isSome
  | slotHashes, data => (readSlotHashes data).isSome
  | lastRestartSlot, data => decodesLastRestartSlot data

/-! ### The operations of a keeper -/

/-- What a node takes from outside: its configuration and library code. -/
structure Config where
  authority : Pubkey
  defaultRent : Rent
  rent : Rent
  /-- Blocks of a superblock; zero stands for Solana's own epochs. -/
  superblock : Nat
  /-- Epoch and leader schedule epoch of a slot under a stored schedule. -/
  epochs : Bytes → Nat → Nat × Nat
  minimumBalance : Nat → UInt64
  defaultFeatures : List Pubkey
  seeds : List (Pubkey × OwnedAccount)

/-- The configuration leaves the sysvar addresses to the engine and changes the rate of the default rent only. -/
structure Config.Valid (c : Config) : Prop where
  rent : c.rent = { c.defaultRent with lamportsPerByte := c.rent.lamportsPerByte }
  authority : ∀ s : Sysvar, s.id ≠ c.authority
  defaultFeatures : ∀ s : Sysvar, s.id ∉ c.defaultFeatures
  seeds : ∀ s : Sysvar, ∀ entry ∈ c.seeds, entry.1 ≠ s.id

namespace Config

variable (c : Config)

def rentOf (rate : Nat) : Rent := { c.defaultRent with lamportsPerByte := rate }

/-- `Keeper::clock`, under the schedule the keeper read at startup. -/
def clock (schedule : Bytes) (block : Block Hash) : Clock :=
  let slot := block.slot + 1
  { slot, epoch := (c.epochs schedule slot).1, leaderScheduleEpoch := (c.epochs schedule slot).2
    unixTimestamp := block.time }

def runtimeAccount (data : Bytes) (owner : Pubkey) : OwnedAccount :=
  { core := { lamports := c.minimumBalance data.length, owner, mode := .runtime }, data }

def sysvarAccount (s : Sysvar) (data : Bytes) : Pubkey × OwnedAccount := (s.id, c.runtimeAccount data sysvarOwnerId)

/-- `Feature { activated_at: Some(0) }`. -/
def featureAccount : OwnedAccount := c.runtimeAccount (1 :: encodeU64 0) featureGateId

def epochSchedule : Bytes := encodeEpochSchedule (if c.superblock = 0 then 432000 else c.superblock)

def genesisData : Sysvar → Bytes
  | .slotHashes => encodeSlotHashes (List.replicate slothashEntries (0, default))
  | .clock => encodeClock (c.clock c.epochSchedule { slot := 0, hash := default, time := 0, parent := default })
  | .rent => encodeRent c.rent
  | .lastRestartSlot => defaultLastRestartSlot
  | .epochSchedule => c.epochSchedule
  | .epochRewards => defaultEpochRewards

/-- The default features and `seed_sysvars`. -/
def genesis : List (Pubkey × OwnedAccount) :=
  c.defaultFeatures.map (fun id => (id, c.featureAccount)) ++
    [Sysvar.slotHashes, .clock, .rent, .lastRestartSlot, .epochSchedule, .epochRewards].map
      fun s => c.sysvarAccount s (c.genesisData s)

end Config

/-- `prepopulate`: what a startup adds to the accounts it found. -/
def Config.populated (c : Config) (isNew : Bool) (m : Accounts) : Accounts :=
  m.store ((if isNew then c.genesis else []) ++
    (if (m c.authority).isNone then
      [(c.authority, { core := { lamports := sponsorInitBalance, mode := .magic } })]
    else []) ++
    c.seeds.filter fun (key, _) => (m key).isNone)

def Config.updateSysvars (c : Config) (schedule : Bytes) (m : Accounts) (block : Block Hash) : Option Accounts := do
  let hacc ← m slotHashesId
  let cacc ← m clockId
  let hashes ← readSlotHashes hacc.data
  let hacc ← serializeData hacc (encodeSlotHashes (addSlotHash hashes block.slot block.hash))
  let cacc ← serializeData cacc (encodeClock (c.clock schedule block))
  some (m.store [(slotHashesId, hacc), (clockId, cacc)])

/-- `AccountsDB::reset` drops the volatile accounts. -/
def Accounts.persisted (m : Accounts) : Accounts := fun key => (m key).filter (·.core.mode.requiresPersistence)

def sponsored (a : OwnedAccount) : OwnedAccount := { a with core := { a.core with lamports := sponsorInitBalance } }

def Config.resetWriter (c : Config) : ResetWriter OwnedAccount where
  authority := c.authority
  rentAccount rate := c.runtimeAccount (encodeRent (c.rentOf rate)) sysvarOwnerId
  featureAccount := c.featureAccount
  requiresPersistence a := a.core.mode.requiresPersistence
  sponsored := sponsored

def Config.resetAccounts (c : Config) (features : Pubkey → Bool) (reset : Reset) (m : Accounts) : Accounts :=
  c.resetWriter.apply features reset m

def NamesNoSysvar (reset : Reset) : Prop := ∀ s : Sysvar, s.id ∉ reset.features

/-! ### The shape of the stored sysvars -/

def Sysvar.Shape (c : Config) : Sysvar → Bytes → Prop
  | clock, data => ∃ clock, data = encodeClock clock
  | rent, data => ∃ rate, data = encodeRent (c.rentOf rate)
  | slotHashes, data => ∃ hashes, hashes.length = slothashEntries ∧ data = encodeSlotHashes hashes
  | s, data => s.decodes data = true

variable {c : Config}

theorem Sysvar.Shape.decodes {s : Sysvar} {data : Bytes} (h : s.Shape c data) : s.decodes data = true := by
  cases s
  case clock =>
    obtain ⟨clock, rfl⟩ := h
    exact isSome_readClock clock
  case rent =>
    obtain ⟨rate, rfl⟩ := h
    rw [Sysvar.decodes, readRent_encodeRent, Option.isSome_some]
  case slotHashes =>
    obtain ⟨hashes, hlength, rfl⟩ := h
    rw [Sysvar.decodes, readSlotHashes_encodeSlotHashes hashes hlength.le, Option.isSome_some]
  all_goals exact h

structure SysvarAccount (c : Config) (s : Sysvar) (a : OwnedAccount) : Prop where
  owner : a.core.owner = sysvarOwnerId
  mode : a.core.mode = .runtime
  shape : s.Shape c a.data

def Seeded (c : Config) (m : Accounts) : Prop := ∀ s : Sysvar, ∃ a, m s.id = some a ∧ SysvarAccount c s a

namespace Seeded

variable {c : Config} {m m' : Accounts}

theorem sysvarData (h : Seeded c m) (s : Sysvar) : ∃ data, m.sysvarData s = some data ∧ s.Shape c data := by
  obtain ⟨a, ha, hsysvar⟩ := h s
  exact ⟨a.data, by rw [Accounts.sysvarData, ha]; rfl, hsysvar.shape⟩

theorem features (h : Seeded c m) (s : Sysvar) : m.features s.id = false := by
  obtain ⟨a, ha, hsysvar⟩ := h s
  simp [Accounts.features, ha, hsysvar.owner, show sysvarOwnerId ≠ featureGateId by decide]

theorem congr (h : Seeded c m) (heq : ∀ s : Sysvar, m' s.id = m s.id) : Seeded c m' := fun s => by
  rw [heq s]
  exact h s

end Seeded

theorem readSlotHashes_of_shape {data : Bytes} (h : Sysvar.slotHashes.Shape c data) :
    ∃ hashes, readSlotHashes data = some hashes ∧ hashes.length = slothashEntries := by
  obtain ⟨hashes, hlength, rfl⟩ := h
  refine ⟨_, readSlotHashes_encodeSlotHashes hashes hlength.le, ?_⟩
  rw [List.length_map, hlength]

namespace Seeded

variable {c : Config} {m : Accounts}

/-- A finalized block always finds its sysvars, and changes the data of these two only. -/
theorem updateSysvars (h : Seeded c m) (schedule : Bytes) (block : Block Hash) :
    ∃ hashes m', (m.sysvarData .slotHashes).bind readSlotHashes = some hashes ∧
      c.updateSysvars schedule m block = some m' ∧ Seeded c m' ∧
      (∀ key, key ≠ slotHashesId → key ≠ clockId → m' key = m key) ∧
      m'.sysvarData .clock = some (encodeClock (c.clock schedule block)) ∧
      m'.sysvarData .slotHashes = some (encodeSlotHashes (addSlotHash hashes block.slot block.hash)) := by
  obtain ⟨hacc, hhacc, hslotHashes⟩ := h .slotHashes
  obtain ⟨cacc, hcacc, hclock⟩ := h .clock
  obtain ⟨hashes, hread, hlength⟩ := readSlotHashes_of_shape hslotHashes.shape
  obtain ⟨stored, hstored, hhaccData⟩ := hslotHashes.shape
  obtain ⟨clock, hcaccData⟩ := hclock.shape
  have hadded := length_addSlotHash block.slot block.hash hlength
  have hne : clockId ≠ slotHashesId := by decide
  let hacc' : OwnedAccount := { hacc with data := encodeSlotHashes (addSlotHash hashes block.slot block.hash) }
  let cacc' : OwnedAccount := { cacc with data := encodeClock (c.clock schedule block) }
  let m' : Accounts := Function.update (Function.update m slotHashesId (some hacc')) clockId (some cacc')
  have hm' : c.updateSysvars schedule m block = some m' := by
    have hhacc' := serializeData_eq (a := hacc)
      (hhaccData ▸ length_encodeSlotHashes _ stored (hadded.trans hstored.symm))
    have hcacc' := serializeData_eq (a := cacc) (hcaccData ▸ length_encodeClock (c.clock schedule block) clock)
    have hhaccMode := hslotHashes.mode
    have hcaccMode := hclock.mode
    rw [Config.updateSysvars, show m slotHashesId = some hacc from hhacc, show m clockId = some cacc from hcacc]
    simp [hread, hhacc', hcacc', Accounts.store, hhaccMode, hcaccMode, m', hacc', cacc']
  have hslot : m' slotHashesId = some hacc' := by
    rw [show m' slotHashesId = Function.update m slotHashesId (some hacc') slotHashesId from
      Function.update_of_ne hne.symm .., Function.update_self]
  have hclk : m' clockId = some cacc' := Function.update_self ..
  have hother (key : Pubkey) (hkey : key ≠ slotHashesId) (hkey' : key ≠ clockId) : m' key = m key := by
    rw [show m' key = Function.update m slotHashesId (some hacc') key from Function.update_of_ne hkey' ..,
      Function.update_of_ne hkey]
  refine ⟨hashes, m', ?_, hm', ?_, hother, ?_, ?_⟩
  · rw [Accounts.sysvarData, hhacc]
    exact hread
  · intro s
    by_cases hs : s = .slotHashes
    · subst hs
      exact ⟨hacc', hslot, hslotHashes.owner, hslotHashes.mode, _, hadded, rfl⟩
    by_cases hs' : s = .clock
    · subst hs'
      exact ⟨cacc', hclk, hclock.owner, hclock.mode, _, rfl⟩
    rw [hother s.id (fun heq => hs (Sysvar.id_injective heq)) (fun heq => hs' (Sysvar.id_injective heq))]
    exact h s
  · rw [Accounts.sysvarData, show m' Sysvar.clock.id = some cacc' from hclk]
    rfl
  · rw [Accounts.sysvarData, show m' Sysvar.slotHashes.id = some hacc' from hslot]
    rfl

variable {features : Pubkey → Bool} {reset : Reset}

private theorem resetStored_sysvar (h : Seeded c m)
    (hfeatures : ∀ s : Sysvar, features s.id = false) (hreset : NamesNoSysvar reset) (s : Sysvar) :
    ∃ a, c.resetWriter.stored features reset m s.id = some a ∧ SysvarAccount c s a ∧
      some a.data = if s = .rent then some (encodeRent (c.rentOf reset.rent)) else m.sysvarData s := by
  obtain ⟨a, ha, hsysvar⟩ := h s
  by_cases hs : s = .rent
  · subst hs
    exact ⟨c.runtimeAccount (encodeRent (c.rentOf reset.rent)) sysvarOwnerId, if_pos rfl,
      ⟨rfl, rfl, reset.rent, rfl⟩, rfl⟩
  · have hid : s.id ≠ rentId := fun heq => hs (Sysvar.id_injective heq)
    refine ⟨a, ?_, hsysvar, ?_⟩
    · rw [ResetWriter.stored, if_neg hid, if_neg (hreset s), hfeatures s, if_neg Bool.false_ne_true, ha]
    · rw [if_neg hs, Accounts.sysvarData, ha]
      rfl

private theorem restoreSponsor_sysvar {s : Sysvar} {a : OwnedAccount} (ha : m s.id = some a)
    (hsysvar : SysvarAccount c s a) :
    ∃ b, c.resetWriter.restoreSponsor m s.id = some b ∧ SysvarAccount c s b ∧ b.data = a.data := by
  rw [ResetWriter.restoreSponsor, show c.resetWriter.authority = c.authority from rfl]
  cases hsponsor : m c.authority with
  | none => exact ⟨a, ha, hsysvar, rfl⟩
  | some sponsor =>
    dsimp only
    by_cases hauthority : s.id = c.authority
    · rw [← hauthority, ha, Option.some.injEq] at hsponsor
      subst hsponsor
      rw [← hauthority, Function.update_self]
      exact ⟨_, rfl, ⟨hsysvar.owner, hsysvar.mode, hsysvar.shape⟩, rfl⟩
    · rw [Function.update_of_ne hauthority]
      exact ⟨a, ha, hsysvar, rfl⟩

private theorem resetAccounts_sysvar (h : Seeded c m)
    (hfeatures : ∀ s : Sysvar, features s.id = false) (hreset : NamesNoSysvar reset) (s : Sysvar) :
    ∃ a, c.resetAccounts features reset m s.id = some a ∧ SysvarAccount c s a ∧
      some a.data = if s = .rent then some (encodeRent (c.rentOf reset.rent)) else m.sysvarData s := by
  obtain ⟨a, ha, hsysvar, hdata⟩ := h.resetStored_sysvar hfeatures hreset s
  have hkept : (c.resetWriter.stored features reset m s.id).filter c.resetWriter.requiresPersistence = some a := by
    rw [ha, Option.filter_some, show c.resetWriter.requiresPersistence a = a.core.mode.requiresPersistence from rfl,
      hsysvar.mode]
    rfl
  obtain ⟨b, hb, hsysvar, hsame⟩ := restoreSponsor_sysvar
    (m := fun key => (c.resetWriter.stored features reset m key).filter c.resetWriter.requiresPersistence) hkept hsysvar
  exact ⟨b, hb, hsysvar, hsame ▸ hdata⟩

theorem resetAccounts (h : Seeded c m)
    (hfeatures : ∀ s : Sysvar, features s.id = false) (hreset : NamesNoSysvar reset) :
    Seeded c (c.resetAccounts features reset m) ∧
      ∀ s : Sysvar, (c.resetAccounts features reset m).sysvarData s =
        if s = .rent then some (encodeRent (c.rentOf reset.rent)) else m.sysvarData s := by
  refine ⟨fun s => ?_, fun s => ?_⟩
  · obtain ⟨a, ha, hsysvar, -⟩ := h.resetAccounts_sysvar hfeatures hreset s
    exact ⟨a, ha, hsysvar⟩
  · obtain ⟨a, ha, -, hdata⟩ := h.resetAccounts_sysvar hfeatures hreset s
    rw [Accounts.sysvarData, ha]
    exact hdata

end Seeded

/-- Nothing a startup adds is stored over a sysvar that exists. -/
theorem Seeded.populated {m : Accounts} (h : Seeded c m) (s : Sysvar) : c.populated false m s.id = m s.id := by
  obtain ⟨a, ha, -⟩ := h s
  refine Accounts.store_of_not_mem fun entry hentry heq => ?_
  rw [← heq] at ha
  simp only [Bool.false_eq_true, if_false, List.nil_append, List.mem_append, List.mem_filter] at hentry
  rcases hentry with hentry | ⟨-, hmissing⟩
  · split at hentry
    · next hnone =>
      rw [List.mem_singleton.mp hentry] at ha
      simp [ha] at hnone
    · cases hentry
  · simp [ha] at hmissing

theorem Config.Valid.shape_genesisData (h : c.Valid) (s : Sysvar) : s.Shape c (c.genesisData s) := by
  cases s
  case clock => exact ⟨_, rfl⟩
  case rent => exact ⟨c.rent.lamportsPerByte, congrArg encodeRent h.rent⟩
  case slotHashes => exact ⟨_, List.length_replicate, rfl⟩
  case epochSchedule => exact decodesEpochSchedule_encode _
  case epochRewards => exact decodesEpochRewards_default
  case lastRestartSlot => exact decodesLastRestartSlot_default

theorem Config.Valid.populated (h : c.Valid) (s : Sysvar) :
    c.populated true (fun _ => none) s.id = some (c.sysvarAccount s (c.genesisData s)).2 := by
  rw [Config.populated, Accounts.store_append, Accounts.store_append, Accounts.store_of_not_mem,
    Accounts.store_of_not_mem, if_pos rfl, Config.genesis, Accounts.store_append]
  · cases s <;> simp [Accounts.store, Config.sysvarAccount, Config.runtimeAccount,
      Sysvar.id_injective.eq_iff]
  · intro entry hentry
    rw [Option.isNone_none, if_pos rfl, List.mem_singleton] at hentry
    rw [hentry]
    exact (h.authority s).symm
  · intro entry hentry
    exact h.seeds s entry (List.mem_filter.mp hentry).1

theorem Config.Valid.seeded (h : c.Valid) : Seeded c (c.populated true fun _ => none) := fun s =>
  ⟨_, h.populated s, rfl, rfl, h.shape_genesisData s⟩

end Processor

/-! ### A codec

Fixed-width little-endian fields, a sequence behind its count. -/

namespace Processor.FixedWidth

def encodeRent (r : Rent) : Bytes :=
  encodeU64 r.lamportsPerByte ++ (encodeU64 r.exemptionThreshold.toNat ++ [r.burnPercent])

/-- The start of the epoch is not tracked. -/
def encodeClock (c : Clock) : Bytes :=
  encodeU64 c.slot ++ (encodeI64 0 ++ (encodeU64 c.epoch ++ (encodeU64 c.leaderScheduleEpoch ++
    encodeI64 c.unixTimestamp)))

def encodeSlotHash (entry : Nat × Hash) : Bytes := encodeU64 entry.1 ++ entry.2.toBytes

def encodeSlotHashes (hashes : List (Nat × Hash)) : Bytes := encodeU64 hashes.length ++ hashes.flatMap encodeSlotHash

def encodeEpochSchedule (slots : Nat) : Bytes :=
  encodeU64 slots ++ (encodeU64 slots ++ ([0] ++ (encodeU64 0 ++ encodeU64 0)))

def decodeI64 (bytes : Bytes) : Int :=
  let n := ofLittleEndian bytes
  if n < 2 ^ 63 then n else n - 2 ^ 64

def readClock (data : Bytes) : Option Clock :=
  if 40 ≤ data.length then
    some
      { slot := ofLittleEndian (slice data 0 8), epoch := ofLittleEndian (slice data 16 8)
        leaderScheduleEpoch := ofLittleEndian (slice data 24 8), unixTimestamp := decodeI64 (slice data 32 8) }
  else none

def readRent (data : Bytes) : Option Nat := if 17 ≤ data.length then some (ofLittleEndian (slice data 0 8)) else none

def decodeSlotHash (entry : Bytes) : Nat × Hash := (ofLittleEndian (entry.take 8), Hash.ofBytes (entry.drop 8))

def readSlotHashes (data : Bytes) : Option (List (Nat × Hash)) :=
  let count := ofLittleEndian (data.take 8)
  if 8 + count * 40 ≤ data.length then some ((groups 40 count (data.drop 8)).map decodeSlotHash) else none

@[simp]
theorem length_encodeU64 (n : Nat) : (encodeU64 n).length = 8 := length_littleEndian 8 n

@[simp]
theorem length_encodeI64 (n : Int) : (encodeI64 n).length = 8 := length_littleEndian 8 _

theorem length_encodeClock (c : Clock) : (encodeClock c).length = 40 := by simp [encodeClock]

theorem length_encodeSlotHash (entry : Nat × Hash) : (encodeSlotHash entry).length = 40 := by simp [encodeSlotHash]

theorem length_encodeSlotHashes (hashes : List (Nat × Hash)) :
    (encodeSlotHashes hashes).length = 8 + hashes.length * 40 := by
  simp [encodeSlotHashes, List.length_flatMap, length_encodeSlotHash]

theorem decodeSlotHash_encodeSlotHash (entry : Nat × Hash) :
    decodeSlotHash (encodeSlotHash entry) = (entry.1 % 2 ^ 64, entry.2) := by
  rw [decodeSlotHash, encodeSlotHash, List.take_left' (length_encodeU64 _), List.drop_left' (length_encodeU64 _),
    Hash.ofBytes_toBytes, encodeU64, ofLittleEndian_littleEndian]
  rfl

theorem readSlotHashes_encodeSlotHashes {hashes : List (Nat × Hash)} (h : hashes.length ≤ slothashEntries) :
    readSlotHashes (encodeSlotHashes hashes) = some (hashes.map fun entry => (entry.1 % 2 ^ 64, entry.2)) := by
  have hcount : ofLittleEndian ((encodeSlotHashes hashes).take 8) = hashes.length := by
    rw [encodeSlotHashes, List.take_left' (length_encodeU64 _), encodeU64, ofLittleEndian_littleEndian]
    exact Nat.mod_eq_of_lt (lt_of_le_of_lt h (by decide))
  have hentries : groups 40 hashes.length ((encodeSlotHashes hashes).drop 8) = hashes.map encodeSlotHash := by
    rw [encodeSlotHashes, List.drop_left' (length_encodeU64 _)]
    simpa using groups_flatMap length_encodeSlotHash hashes []
  have hmap : (hashes.map encodeSlotHash).map decodeSlotHash = hashes.map fun entry => (entry.1 % 2 ^ 64, entry.2) := by
    rw [List.map_map]
    exact List.map_congr_left fun entry _ => decodeSlotHash_encodeSlotHash entry
  rw [readSlotHashes]
  simp only [hcount]
  rw [if_pos (by rw [length_encodeSlotHashes]), hentries, hmap]

theorem readRent_encodeRent (r : Rent) : readRent (encodeRent r) = some (r.lamportsPerByte % 2 ^ 64) := by
  rw [readRent, if_pos (by simp [encodeRent]), slice, List.drop_zero, encodeRent, List.take_left' (length_encodeU64 _),
    encodeU64, ofLittleEndian_littleEndian]
  rfl

theorem encodeRent_mod (r : Rent) :
    encodeRent { r with lamportsPerByte := r.lamportsPerByte % 2 ^ 64 } = encodeRent r := by
  have hrate : encodeU64 (r.lamportsPerByte % 2 ^ 64) = encodeU64 r.lamportsPerByte := littleEndian_mod 8 _
  simp only [encodeRent, hrate]

instance codec : SysvarCodec where
  encodeClock := encodeClock
  encodeRent := encodeRent
  encodeSlotHashes := encodeSlotHashes
  encodeEpochSchedule := encodeEpochSchedule
  defaultEpochRewards := List.replicate 81 0
  defaultLastRestartSlot := encodeU64 0
  readClock := readClock
  readRent := readRent
  readSlotHashes := readSlotHashes
  decodesEpochSchedule data := decide (33 ≤ data.length) && decide (data.getD 16 0 ≤ 1)
  decodesEpochRewards data := decide (81 ≤ data.length) && decide (data.getD 80 0 ≤ 1)
  decodesLastRestartSlot data := decide (8 ≤ data.length)
  length_encodeClock clock clock' := by rw [length_encodeClock, length_encodeClock]
  length_encodeSlotHashes hashes hashes' h := by rw [length_encodeSlotHashes, length_encodeSlotHashes, h]
  length_encodeRent rent := by simp [encodeRent]
  isSome_readClock clock := by simp [readClock, length_encodeClock]
  readRent_encodeRent := readRent_encodeRent
  encodeRent_mod := encodeRent_mod
  readSlotHashes_encodeSlotHashes _ := readSlotHashes_encodeSlotHashes
  decodesEpochSchedule_encode slots := by simp [encodeEpochSchedule]
  decodesEpochRewards_default := by decide
  decodesLastRestartSlot_default := by decide

end Processor.FixedWidth

end MagicEngine
