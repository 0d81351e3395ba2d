import Esker.KeyRange
import Esker.Wire
import Esker.Consensus.Types

/-!
Contract: a region and what the replicated log does to its record
(`esker-proto/src/region.rs`, `esker-store/src/apply.rs`, `esker-store/src/region.rs`,
`esker-store/src/split.rs`).

Owns: the region record, the range questions every layer asks it, the two functions
that compute a region's next record (`splitRegion`, `applyConfChange`) and the two
staging steps of a peer that decide whether the record moves at all.

Does not own: where the records are kept, or what a region's keys hold.
-/

namespace Esker.Store

open Esker.Consensus (Bytes ConfChange ConfChangeKind ConfState)
open Esker.KeyRange

/-! ## Keys

A key is any linear order with a least element: the program's byte strings, whose
least element is the empty string. -/

instance byteOrder : LinearOrder UInt8 where
  le_refl := fun _ => UInt8.le_refl _
  le_trans := fun _ _ _ => UInt8.le_trans
  le_antisymm := fun _ _ => UInt8.le_antisymm
  le_total := UInt8.le_total
  lt_iff_le_not_ge := by
    intro left right
    rw [UInt8.lt_iff_toNat_lt, UInt8.le_iff_toNat_le, UInt8.le_iff_toNat_le]
    omega
  toDecidableLE := inferInstance
  toDecidableEq := inferInstance
  toDecidableLT := inferInstance
  compare_eq_compareOfLessAndEq := by
    intro left right
    rfl

instance bytesOrderBot : OrderBot Bytes where
  bot := []
  bot_le := by
    intro key
    exact not_lt.mp (List.not_lt_nil key)

/-! ## Records -/

/-- A region's version: `confVer` counts membership changes, `version` range changes. -/
structure Epoch where
  confVer : Nat
  version : Nat
deriving DecidableEq, Repr

def Epoch.initial : Epoch := ⟨1, 1⟩

inductive PeerRole where
  | voter
  | learner
  | columnarLearner
deriving DecidableEq, Repr

def PeerRole.fromU8 (byte : UInt8) : Option PeerRole :=
  if byte = 1 then some .voter
  else if byte = 2 then some .learner
  else if byte = 3 then some .columnarLearner
  else none

structure Peer where
  storeId : Nat
  peerId : Nat
  role : PeerRole
deriving DecidableEq, Repr

structure Region (K : Type) where
  id : Nat
  startKey : K
  /-- Exclusive end of the range; `⊥` means "to the end of the key space". -/
  endKey : K
  peers : List Peer
  epoch : Epoch
deriving DecidableEq, Repr

inductive ProtoError (K : Type) where
  | epochNotMatch (currentRegions : List (Region K))
  | invalid (reason : String)
  | corrupt (what detail : String)
  | internal (reason : String)
deriving DecidableEq, Repr

namespace Region

variable {K : Type} [LinearOrder K] [OrderBot K]

/-- The first region of a new cluster: covering everything, one voting peer. -/
def bootstrap (id storeId peerId : Nat) : Region K :=
  ⟨id, ⊥, ⊥, [⟨storeId, peerId, .voter⟩], Epoch.initial⟩

variable (region : Region K)

/-- Whether `key` falls inside this region's range. -/
def contains (key : K) : Bool :=
  decide (InRange region.startKey region.endKey key)

@[simp] theorem contains_iff {region : Region K} {key : K} :
    region.contains key = true ↔ InRange region.startKey region.endKey key := by
  rw [contains, decide_eq_true_eq]

def ProperRange : Prop := Proper region.startKey region.endKey

instance (region : Region K) : Decidable region.ProperRange :=
  inferInstanceAs (Decidable (Proper _ _))

/-- Whether this region shares any key with `[start, stop)`. A request whose two ends
are one nonempty key is the point there. -/
def overlaps (start stop : K) : Bool :=
  if start = stop ∧ start ≠ ⊥ then region.contains start
  else
    let before := decide (region.endKey ≠ ⊥ ∧ region.endKey ≤ start)
    let after := decide (stop ≠ ⊥ ∧ stop ≤ region.startKey)
    !(before || after)

theorem overlaps_iff {region : Region K} {start stop : K} (properRange : region.ProperRange)
    (proper : Proper start stop) :
    region.overlaps start stop = true ↔ Meets region.startKey region.endKey start stop := by
  have notPoint : ¬(start = stop ∧ start ≠ ⊥) := by
    rintro ⟨same, nonempty⟩
    rcases proper with unbounded | below
    · exact nonempty (same.trans unbounded)
    · exact absurd same below.ne
  rw [overlaps, if_neg notPoint, meets_iff properRange proper]
  simp only [Bool.not_eq_true', Bool.or_eq_false_iff, decide_eq_false_iff_not]

end Region

/-! ## Splits -/

/-- `sort_unstable_by_key` on the peer id. -/
def sortPeers (peers : List Peer) : List Peer :=
  peers.insertionSort fun left right => left.peerId ≤ right.peerId

/-- The two halves of a split: the parent keeps its id and its start, the child takes
the rest under a new id with the parent's peers on their own stores. -/
def splitRegion {K : Type} (parent : Region K) (splitKey : K) (newRegionId : Nat)
    (newPeerIds : List Nat) : Except (ProtoError K) (Region K × Region K) :=
  if newPeerIds.length ≠ parent.peers.length then
    .error (.invalid s!"a split of region {parent.id} carries {newPeerIds.length} peer ids for {parent.peers.length} peers")
  else if newRegionId = 0 ∨ newRegionId = parent.id ∨ 0 ∈ newPeerIds then
    .error (.invalid s!"a split of region {parent.id} carries an unusable id")
  else
    let childPeers := (sortPeers parent.peers).zipWith
      (fun peer peerId => Peer.mk peer.storeId peerId peer.role) newPeerIds
    let version := parent.epoch.version + 1
    let left := { parent with
      endKey := splitKey, epoch := ⟨parent.epoch.confVer, version⟩ }
    let right := Region.mk newRegionId splitKey parent.endKey childPeers
      ⟨parent.epoch.confVer, version⟩
    .ok (left, right)

variable {K : Type} {newRegionId : Nat} {newPeerIds : List Nat} {change : ConfChange}
  {moved : Region K}

theorem splitRegion_ok {parent left right : Region K} {splitKey : K}
    (split : splitRegion parent splitKey newRegionId newPeerIds = .ok (left, right)) :
    newRegionId ≠ parent.id ∧ right.id = newRegionId ∧ right.startKey = splitKey ∧
      right.endKey = parent.endKey ∧
      left = { parent with
        endKey := splitKey, epoch := ⟨parent.epoch.confVer, parent.epoch.version + 1⟩ } := by
  rw [splitRegion] at split
  split_ifs at split with counted unusable
  simp only [Except.ok.injEq, Prod.mk.injEq] at split
  obtain ⟨leftIs, rightIs⟩ := split
  rw [← rightIs]
  exact ⟨fun same => unusable (Or.inr (Or.inl same)), rfl, rfl, rfl, leftIs.symm⟩

section StageSplit

variable {K : Type} [LinearOrder K] [OrderBot K]

/-- Whether `key` divides `region` into two non-empty ranges. -/
def isLegalBoundary (key : K) (region : Region K) : Bool :=
  decide (region.startKey < key) &&
    (decide (region.endKey = ⊥) || decide (key < region.endKey))

theorem isLegalBoundary_iff {key : K} {region : Region K} :
    isLegalBoundary key region = true ↔ Divides region.startKey region.endKey key := by
  simp only [isLegalBoundary, Bool.and_eq_true, Bool.or_eq_true, decide_eq_true_eq, Divides]

/-- A peer's staging of a split entry: nothing where the boundary is no longer inside the
region, the two halves where it is. -/
def stageSplit (region : Region K) (splitKey : K) (newRegionId : Nat) (newPeerIds : List Nat) :
    Except (ProtoError K) (Option (Region K × Region K)) :=
  if isLegalBoundary splitKey region then
    (splitRegion region splitKey newRegionId newPeerIds).map some
  else .ok none

theorem stageSplit_some {region left right : Region K} {splitKey : K}
    (staged : stageSplit region splitKey newRegionId newPeerIds = .ok (some (left, right))) :
    Divides region.startKey region.endKey splitKey ∧
      splitRegion region splitKey newRegionId newPeerIds = .ok (left, right) := by
  rw [stageSplit] at staged
  split_ifs at staged with legal
  · refine ⟨isLegalBoundary_iff.mp legal, ?_⟩
    cases computed : splitRegion region splitKey newRegionId newPeerIds with
    | error error =>
      rw [computed] at staged
      cases staged
    | ok halves =>
      rw [computed] at staged
      simp only [Except.map, Except.ok.injEq, Option.some.injEq] at staged
      rw [staged]
  · cases staged

end StageSplit

/-! ## Membership -/

/-- `none` is any of the decoding errors, which the caller does not tell apart. -/
def getU64 (buffer : Bytes) : Option (Nat × Bytes) := Wire.varintFrom 0 buffer

def commandFormatVersion : UInt8 := 1

/-- The store a membership change places a peer on, and the role it takes. A context
without the role byte is a learner's. -/
def decodeConfChangeContext {K : Type} (context : Bytes) : Except (ProtoError K) (Nat × PeerRole) :=
  match context with
  | [] => .error (.corrupt "conf change context" "conf.version")
  | version :: rest =>
    if version ≠ commandFormatVersion then
      .error (.corrupt "conf change context"
        s!"format version {version}, expected {commandFormatVersion}")
    else
      match getU64 rest with
      | none => .error (.corrupt "conf change context" "conf.store_id")
      | some (storeId, []) => .ok (storeId, .learner)
      | some (storeId, byte :: _) =>
        match PeerRole.fromU8 byte with
        | none => .error (.corrupt "conf change context" s!"role byte {byte}")
        | some role => .ok (storeId, role)

def setRole (node : Nat) (role : PeerRole) : List Peer → List Peer
  | [] => []
  | peer :: rest =>
    if peer.peerId = node then { peer with role } :: rest else peer :: setRole node role rest

/-- The role an addition gives: a voter's is a voter's, a learner's is what the context
says. -/
def addedRole (change : ConfChange) : PeerRole :=
  if change.kind = .addVoter then .voter
  else
    match @decodeConfChangeContext Unit change.context with
    | .ok (_, role) => role
    | .error _ => .learner

/-- The peers after a membership change, in the order the change leaves them. -/
def movedPeers (peers : List Peer) (change : ConfChange) (storeId : Nat) : List Peer :=
  match change.kind with
  | .addVoter | .addLearner =>
    -- Promotion: the peer is already there and only its role moves.
    if peers.any (·.peerId = change.node) then setRole change.node (addedRole change) peers
    else peers ++ [⟨storeId, change.node, addedRole change⟩]
  | .remove => peers.filter (·.peerId ≠ change.node)

/-- The region after a membership change: its peers move and `confVer` advances. -/
def applyConfChange {K : Type} (region : Region K) (change : ConfChange) (storeId : Nat) :
    Except (ProtoError K) (Region K) :=
  let peers := movedPeers region.peers change storeId
  if peers = [] then
    .error (.invalid s!"a conf change would leave region {region.id} with no peers")
  else
    .ok { region with
      peers := sortPeers peers
      epoch := ⟨region.epoch.confVer + 1, region.epoch.version⟩ }

theorem applyConfChange_ok {region : Region K} {storeId : Nat}
    (applied : applyConfChange region change storeId = .ok moved) :
    movedPeers region.peers change storeId ≠ [] ∧ moved = { region with
      peers := sortPeers (movedPeers region.peers change storeId)
      epoch := ⟨region.epoch.confVer + 1, region.epoch.version⟩ } := by
  rw [applyConfChange] at applied
  split_ifs at applied with emptied
  simp only [Except.ok.injEq] at applied
  exact ⟨emptied, applied.symm⟩

/-- A peer's staging of a membership change: nothing where the peers stay as they are. -/
def stageConfChange {K : Type} (region : Region K) (change : ConfChange) :
    Except (ProtoError K) (Option (Region K)) :=
  match @decodeConfChangeContext K change.context with
  | .error error => .error error
  | .ok (storeId, _) =>
    match applyConfChange region change storeId with
    | .error error => .error error
    | .ok moved => if moved.peers = region.peers then .ok none else .ok (some moved)

theorem stageConfChange_some {region : Region K}
    (staged : stageConfChange region change = .ok (some moved)) :
    ∃ storeId, applyConfChange region change storeId = .ok moved ∧ moved.peers ≠ region.peers := by
  rw [stageConfChange] at staged
  split at staged
  · cases staged
  rename_i storeId _ _
  split at staged
  · cases staged
  rename_i result applied
  split_ifs at staged with unchanged
  · simp only [Except.ok.injEq, reduceCtorEq] at staged
  simp only [Except.ok.injEq, Option.some.injEq] at staged
  rw [staged] at applied unchanged
  exact ⟨storeId, applied, unchanged⟩

end Esker.Store
