import Esker.GroupEncoding
import Esker.SortedMap
import Esker.Store.Region
import Esker.Wire

/-!
Contract: the stream that carries a region from one store to another
(`esker-store/src/snapshot.rs`, `physical_ranges_of` of `esker-store/src/keyspace.rs`,
`encode_region_into` and `decode_region_from` of `esker-store/src/meta.rs`).

Owns: the header and the chunks as bytes, what the sender reads at a pinned snapshot, what the
receiver clears and stages, and that a transfer copies the region and nothing else.

Does not own: the announcement and the adoption of a receive (`Esker.Store.Transfers`), and the
checksum, which is a parameter.
-/

namespace Esker.Store.Snapshots

open Esker.Consensus (Bytes ConfState SnapshotMeta)
open Esker.KeyRange Esker.Wire
open GroupEncoding (encodeBytes encodeBytes_lt)
open List

inductive SnapshotError where
  | decode (what : String) (error : DecodeError)
  | corrupt (what detail : String)
  | wireVersion (expected actual : Nat)
  | unsupported (region : Nat) (survivor : Bytes)
deriving DecidableEq, Repr

abbrev Decoder := Reader SnapshotError

def snapshotFormatVersion : UInt8 := 2
def chunkHeader : UInt8 := 1
def chunkPairs : UInt8 := 2

def field {α : Type} (what : String) (read : Reader DecodeError α) : Decoder α :=
  mapError (.decode what) read

def expectKind (kind : UInt8) : Decoder Unit := do
  let version ← field "snapshot chunk" (getU8 "snapshot.version")
  require (version = snapshotFormatVersion)
    (.wireVersion snapshotFormatVersion.toNat version.toNat)
  let found ← field "snapshot chunk" (getU8 "snapshot.kind")
  require (found = kind) (.corrupt "snapshot chunk" s!"chunk kind {found}, expected {kind}")

variable {α : Type} {bytes : List UInt8} {pairs : List Pair} {pair : Pair} {tag : UInt8}
  {family : Family} {map : SortedMap Bytes Bytes} {key : Bytes} {value : α}

theorem reads_field (what : String) {read : Reader DecodeError α}
    (reads : Wire.Reads read bytes value) : Wire.Reads (field what read) bytes value :=
  reads.orElse _

theorem reads_expectKind (kind : UInt8) :
    Wire.Reads (expectKind kind) [snapshotFormatVersion, kind] () := by
  apply (reads_field "snapshot chunk" (reads_u8 _ snapshotFormatVersion)).bind
  apply (reads_require (decide_eq_true rfl) _).bind
  exact (reads_field "snapshot chunk" (reads_u8 _ kind)).bind (reads_require (decide_eq_true rfl) _)

/-! ## The header -/

section Header

/-- What the first chunk of a stream says the rest of it is. -/
structure SnapshotHeader where
  region : Region Bytes
  about : SnapshotMeta
deriving DecidableEq, Repr

def roleByte : PeerRole → UInt8
  | .voter => 1
  | .learner => 2
  | .columnarLearner => 3

def encodePeer (peer : Peer) : List UInt8 :=
  putVarint peer.storeId ++ (putVarint peer.peerId ++ [roleByte peer.role])

def encodeRegionInto (region : Region Bytes) : List UInt8 :=
  putVarint region.id ++ (putBytes region.startKey ++ (putBytes region.endKey ++
    (putVarint region.epoch.confVer ++ (putVarint region.epoch.version ++
      putList encodePeer region.peers))))

def putIds (ids : List Nat) : List UInt8 := putList putVarint ids

def SnapshotHeader.encode (header : SnapshotHeader) : List UInt8 :=
  [snapshotFormatVersion, chunkHeader] ++ (encodeRegionInto header.region ++
    (putVarint header.about.index ++ (putVarint header.about.term ++
      (putIds header.about.conf.voters ++ putIds header.about.conf.learners))))

def decodePeer (id : Nat) : Decoder Peer := do
  let storeId ← field "snapshot header" (getVarint "region.peer.store")
  let peerId ← field "snapshot header" (getVarint "region.peer.id")
  let byte ← field "snapshot header" (getU8 "region.peer.role")
  let role ← requireSome (PeerRole.fromU8 byte) (.corrupt "snapshot header"
    s!"region {id} has a peer with role byte {byte}, which this version does not define")
  pure ⟨storeId, peerId, role⟩

/-- An empty end key is the end of the key space, so only another one can be too low. -/
def decodeRegionFrom : Decoder (Region Bytes) := do
  let id ← field "snapshot header" (getVarint "region.id")
  let startKey ← field "snapshot header" (getBytes "region.start_key")
  let endKey ← field "snapshot header" (getBytes "region.end_key")
  let confVer ← field "snapshot header" (getVarint "region.conf_ver")
  let version ← field "snapshot header" (getVarint "region.epoch")
  let peers ← field "snapshot header" (getCount "region.peers") >>= fun count =>
    getMany (decodePeer id) count
  require (peers ≠ []) (.corrupt "snapshot header"
    s!"region {id} has no peers; a record on this store must name the peer it hosts")
  require (endKey = [] ∨ startKey < endKey) (.corrupt "snapshot header"
    s!"region {id} has its start at or above its end")
  pure ⟨id, startKey, endKey, peers, ⟨confVer, version⟩⟩

def getIds (name : String) : Decoder (List Nat) :=
  field "snapshot header" (getCount name) >>= fun count =>
    getMany (field "snapshot header" (getVarint name)) count

def headerFields : Decoder (Region Bytes × Nat × Nat × List Nat × List Nat) := do
  expectKind chunkHeader
  let region ← decodeRegionFrom
  let index ← field "snapshot header" (getVarint "snapshot.index")
  let term ← field "snapshot header" (getVarint "snapshot.term")
  let voters ← getIds "snapshot.voters"
  let learners ← getIds "snapshot.learners"
  pure (region, index, term, voters, learners)

/-- The header that the fields make, at the end of the chunk. -/
def headerOf (fields : Region Bytes × Nat × Nat × List Nat × List Nat) :
    Decoder SnapshotHeader := do
  field "snapshot header" finish
  require (fields.2.1 ≠ 0) (.corrupt "snapshot header"
    "a snapshot at index zero is the empty snapshot, which is never sent")
  pure ⟨fields.1, ⟨fields.2.1, fields.2.2.1,
    ConfState.normalize ⟨fields.2.2.2.1, fields.2.2.2.2⟩⟩⟩

def decodeWhole {α : Type} (decoder : Decoder α) (bytes : List UInt8) : Except SnapshotError α :=
  match decoder bytes with
  | .error error => .error error
  | .ok (value, _) => .ok value

def SnapshotHeader.decode (bytes : List UInt8) : Except SnapshotError SnapshotHeader :=
  decodeWhole (headerFields >>= headerOf) bytes

/-- A region as a store may hold it: its numbers are of 64 bits, it has a peer, and it holds a
key. -/
structure SendableRegion (region : Region Bytes) : Prop where
  id : region.id < 2 ^ 64
  startKey : region.startKey.length < 2 ^ 64
  endKey : region.endKey.length < 2 ^ 64
  confVer : region.epoch.confVer < 2 ^ 64
  version : region.epoch.version < 2 ^ 64
  count : region.peers.length < 2 ^ 64
  peers : ∀ peer ∈ region.peers, peer.storeId < 2 ^ 64 ∧ peer.peerId < 2 ^ 64
  hosted : region.peers ≠ []
  proper : region.endKey = [] ∨ region.startKey < region.endKey

structure Fitting (header : SnapshotHeader) : Prop where
  region : SendableRegion header.region
  index : header.about.index < 2 ^ 64
  term : header.about.term < 2 ^ 64
  voters : header.about.conf.voters.length < 2 ^ 64 ∧ ∀ id ∈ header.about.conf.voters, id < 2 ^ 64
  learners : header.about.conf.learners.length < 2 ^ 64 ∧
    ∀ id ∈ header.about.conf.learners, id < 2 ^ 64

/-- A header that is sent: of a snapshot that is not the empty one, with the members in order. -/
structure Sendable (header : SnapshotHeader) : Prop extends Fitting header where
  notEmpty : header.about.index ≠ 0
  normal : header.about.conf.normalize = header.about.conf

theorem fromU8_roleByte (role : PeerRole) : PeerRole.fromU8 (roleByte role) = some role := by
  cases role <;> rfl

theorem reads_peer (id : Nat) {peer : Peer} (fits : peer.storeId < 2 ^ 64 ∧ peer.peerId < 2 ^ 64) :
    Wire.Reads (decodePeer id) (encodePeer peer) peer := by
  apply (reads_field "snapshot header" (reads_varint _ fits.1)).bind
  apply (reads_field "snapshot header" (reads_varint _ fits.2)).bind
  apply (reads_field "snapshot header" (reads_u8 _ (roleByte peer.role))).bind
  exact (reads_requireSome (fromU8_roleByte peer.role) _).map _

theorem reads_region {region : Region Bytes} (sendable : SendableRegion region) :
    Wire.Reads decodeRegionFrom (encodeRegionInto region) region := by
  apply (reads_field "snapshot header" (reads_varint _ sendable.id)).bind
  apply (reads_field "snapshot header" (reads_bytes _ sendable.startKey)).bind
  apply (reads_field "snapshot header" (reads_bytes _ sendable.endKey)).bind
  apply (reads_field "snapshot header" (reads_varint _ sendable.confVer)).bind
  apply (reads_field "snapshot header" (reads_varint _ sendable.version)).bind
  have peers : Wire.Reads (field "snapshot header" (getCount "region.peers") >>= fun count =>
      getMany (decodePeer region.id) count) (putList encodePeer region.peers) region.peers :=
    reads_list "region.peers" _ region.peers sendable.count (fun peer => by
        rw [encodePeer, length_append]
        have := putVarint_length peer.storeId
        omega)
      fun peer mem => reads_peer region.id (sendable.peers peer mem)
  rw [← append_nil (putList encodePeer region.peers)]
  apply peers.bind
  apply (reads_require (decide_eq_true sendable.hosted) _).bind
  exact (reads_require (decide_eq_true sendable.proper) _).map _

theorem reads_ids (name : String) {ids : List Nat} (count : ids.length < 2 ^ 64)
    (fits : ∀ id ∈ ids, id < 2 ^ 64) : Wire.Reads (getIds name) (putIds ids) ids :=
  reads_list name _ ids count putVarint_length fun id mem =>
    reads_field "snapshot header" (reads_varint name (fits id mem))

variable {header : SnapshotHeader}

theorem reads_header (sendable : Fitting header) :
    Wire.Reads headerFields header.encode (header.region, header.about.index, header.about.term,
      header.about.conf.voters, header.about.conf.learners) := by
  apply (reads_expectKind chunkHeader).bind
  apply (reads_region sendable.region).bind
  apply (reads_field "snapshot header" (reads_varint _ sendable.index)).bind
  apply (reads_field "snapshot header" (reads_varint _ sendable.term)).bind
  apply (reads_ids "snapshot.voters" sendable.voters.1 sendable.voters.2).bind
  exact (reads_ids "snapshot.learners" sendable.learners.1 sendable.learners.2).map _

theorem header_decode_encode (sendable : Sendable header) :
    SnapshotHeader.decode header.encode = .ok header := by
  have ended : headerOf (header.region, header.about.index, header.about.term,
      header.about.conf.voters, header.about.conf.learners) [] = .ok (header, []) := by
    have required := (reads_require (decide_eq_true sendable.notEmpty) (SnapshotError.corrupt
      "snapshot header" "a snapshot at index zero is the empty snapshot, which is never sent")).map
      (fun _ => (⟨header.region, ⟨header.about.index, header.about.term,
        ConfState.normalize ⟨header.about.conf.voters, header.about.conf.learners⟩⟩⟩ :
          SnapshotHeader)) []
    unfold headerOf
    rwa [show ConfState.normalize ⟨header.about.conf.voters, header.about.conf.learners⟩ =
      header.about.conf from sendable.normal] at required ⊢
  unfold SnapshotHeader.decode decodeWhole
  rw [(reads_header sendable.toFitting).whole, ended]

end Header

/-! ## The chunks of pairs -/

section Pairs

inductive Family where
  | default
  | lock
  | write
deriving DecidableEq, Repr

def snapshotFamilies : List (UInt8 × Family) := [(1, .default), (2, .lock), (3, .write)]

def cfName (tag : UInt8) : Option Family :=
  (snapshotFamilies.find? fun shipped => shipped.1 = tag).map Prod.snd

abbrev Pair := Bytes × Bytes

def putPair (pair : Pair) : List UInt8 := putBytes pair.1 ++ putBytes pair.2

variable (checksum : List UInt8 → UInt32)

def encodePairs (tag : UInt8) (pairs : List Pair) : List UInt8 :=
  let body := putList putPair pairs
  [snapshotFormatVersion, chunkPairs] ++ ([tag] ++ (putU32 (checksum body) ++ putBytes body))

def chunkFields : Decoder (UInt8 × UInt32 × List UInt8) := do
  expectKind chunkPairs
  let tag ← field "snapshot chunk" (getU8 "snapshot.cf")
  let _ ← requireSome (cfName tag) (.corrupt "snapshot chunk"
    s!"column family {tag}, which this build does not ship")
  let expected ← field "snapshot chunk" (getU32 "snapshot.crc")
  let body ← field "snapshot chunk" (getBytes "snapshot.body")
  pure (tag, expected, body)

def getPair : Decoder Pair := do
  let key ← field "snapshot chunk" (getBytes "snapshot.key")
  let value ← field "snapshot chunk" (getBytes "snapshot.value")
  pure (key, value)

def pairsBody : Decoder (List Pair) :=
  field "snapshot chunk" (getCount "snapshot.pairs") >>= fun count => getMany getPair count

/-- Checks the checksum before anything of the body is believed. -/
def decodePairs (bytes : List UInt8) : Except SnapshotError (UInt8 × List Pair) :=
  match decodeWhole (chunkFields >>= fun fields =>
      field "snapshot chunk" finish >>= fun _ => pure fields) bytes with
  | .error error => .error error
  | .ok (tag, expected, body) =>
    if checksum body ≠ expected then .error (.corrupt "snapshot chunk" "checksum")
    else
      match decodeWhole (pairsBody >>= fun pairs =>
          field "snapshot chunk" finish >>= fun _ => pure pairs) body with
      | .error error => .error error
      | .ok pairs => .ok (tag, pairs)

/-- The bytes of the pairs are of a number that 64 bits hold. -/
def Small (pairs : List Pair) : Prop := (pairs.flatMap putPair).length + 10 < 2 ^ 64

theorem putPair_length (pair : Pair) : pair.1.length + pair.2.length < (putPair pair).length := by
  have := putVarint_length pair.1.length
  unfold putPair putBytes
  simp only [length_append]
  omega

theorem putPair_le_of_mem (mem : pair ∈ pairs) :
    (putPair pair).length ≤ (pairs.flatMap putPair).length :=
  (sublist_flatten_of_mem (mem_map_of_mem mem)).length_le

theorem reads_pair (key : pair.1.length < 2 ^ 64) (value : pair.2.length < 2 ^ 64) :
    Wire.Reads getPair (putPair pair) pair := by
  apply (reads_field "snapshot chunk" (reads_bytes _ key)).bind
  exact (reads_field "snapshot chunk" (reads_bytes _ value)).map _

theorem small_count (small : Small pairs) : pairs.length < 2 ^ 64 := by
  have enough := length_le_flatMap pairs fun pair =>
    Nat.lt_of_le_of_lt (Nat.zero_le _) (putPair_length pair)
  unfold Small at small
  omega

theorem reads_pairsBody (small : Small pairs) :
    Wire.Reads pairsBody (putList putPair pairs) pairs := by
  apply reads_list "snapshot.pairs" _ pairs (small_count small)
  · exact fun pair => Nat.lt_of_le_of_lt (Nat.zero_le _) (putPair_length pair)
  intro pair mem
  have bound := putPair_le_of_mem mem
  have length := putPair_length pair
  unfold Small at small
  exact reads_pair (by omega) (by omega)

theorem body_length (small : Small pairs) : (putList putPair pairs).length < 2 ^ 64 := by
  have varint := putVarint_length_le 9 pairs.length
    (Nat.lt_of_lt_of_le (small_count small) (by decide))
  unfold Small at small
  unfold putList
  rw [length_append]
  omega

theorem decodeWhole_reads {decoder : Decoder α} (reads : Wire.Reads decoder bytes value) :
    decodeWhole (decoder >>= fun value => field "snapshot chunk" finish >>= fun _ => pure value)
      bytes = .ok value := by
  unfold decodeWhole
  rw [reads.whole]
  rfl

theorem decodePairs_encodePairs (shipped : cfName tag = some family) (small : Small pairs) :
    decodePairs checksum (encodePairs checksum tag pairs) = .ok (tag, pairs) := by
  have fields : Wire.Reads chunkFields (encodePairs checksum tag pairs)
      (tag, checksum (putList putPair pairs), putList putPair pairs) := by
    apply (reads_expectKind chunkPairs).bind
    apply (reads_field "snapshot chunk" (reads_u8 _ tag)).bind
    apply (reads_requireSome shipped _).bind
    apply (reads_field "snapshot chunk" (reads_u32 _ (checksum (putList putPair pairs)))).bind
    exact (reads_field "snapshot chunk" (reads_bytes _ (body_length small))).map _
  unfold decodePairs
  rw [decodeWhole_reads fields]
  dsimp only
  rw [if_neg (not_not.mpr rfl), decodeWhole_reads (reads_pairsBody small)]

end Pairs

/-! ## The transfer -/

section Transfer

abbrev Database := Family → SortedMap Bytes Bytes

def rawNamespace : UInt8 := 114
def txnNamespace : UInt8 := 120

/-- `physical_ranges_of`: the engine ranges of a range of user keys, one a namespace. -/
def physicalRangesOf (start stop : Bytes) : List (Bytes × Bytes) :=
  [(rawNamespace :: start, if stop = [] then [rawNamespace + 1] else rawNamespace :: stop),
    (if start = [] then [txnNamespace] else txnNamespace :: encodeBytes start,
      if stop = [] then [txnNamespace + 1] else txnNamespace :: encodeBytes stop)]

def physicalRanges (region : Region Bytes) : List (Bytes × Bytes) :=
  physicalRangesOf region.startKey region.endKey

/-- A seek to the low end and the entries below the high one. -/
def scan (map : SortedMap Bytes Bytes) (range : Bytes × Bytes) : List Pair :=
  (map.fromKey range.1).takeWhile fun entry => entry.1 < range.2

variable (db : Database)

/-- What a family holds of a region, namespace by namespace. -/
def regionPairs (region : Region Bytes) (family : Family) : List Pair :=
  (physicalRanges region).flatMap (scan (db family))

/-- Closes a batch once it has reached the target. The last one goes even when it is empty. -/
def fillChunks (target : Nat) : List Pair → Nat → List Pair → List (List Pair)
  | batch, _, [] => [batch]
  | batch, bytes, pair :: rest =>
    if target ≤ bytes + (pair.1.length + pair.2.length) then
      (batch ++ [pair]) :: fillChunks target [] 0 rest
    else fillChunks target (batch ++ [pair]) (bytes + (pair.1.length + pair.2.length)) rest

def readPairs (target : Nat) (pinned : Database) (region : Region Bytes) :
    List (UInt8 × List Pair) :=
  snapshotFamilies.flatMap fun shipped =>
    (fillChunks target [] 0 (regionPairs pinned region shipped.2)).map (shipped.1, ·)

/-- Whether an engine key is in one of the region's ranges. -/
def inRegion (region : Region Bytes) (key : Bytes) : Bool :=
  (physicalRanges region).any fun range => decide (range.1 ≤ key) && decide (key < range.2)

/-- The first key that a shipped family holds of the region. -/
def firstKeyIn (region : Region Bytes) : Option Bytes :=
  ((snapshotFamilies.flatMap fun shipped => regionPairs db region shipped.2).head?).map Prod.fst

def deleteRanges (region : Region Bytes) : Database := fun family =>
  ⟨(db family).entries.filter fun entry => !inRegion region entry.1, (db family).sorted.filter _⟩

def clearRange (region : Region Bytes) : Except SnapshotError Database :=
  match firstKeyIn db region with
  | none => .ok db
  | some _ =>
    match firstKeyIn (deleteRanges db region) region with
    | some survivor => .error (.unsupported region.id survivor)
    | none => .ok (deleteRanges db region)

def stagePairs (tag : UInt8) (pairs : List Pair) : Except SnapshotError Database :=
  if pairs = [] then .ok db
  else
    match cfName tag with
    | none => .error (.corrupt "snapshot chunk" "column family")
    | some named => .ok fun family =>
      if family = named then
        pairs.foldl (fun map pair => map.insert pair.1 pair.2) (db family)
      else db family

variable (checksum : List UInt8 → UInt32)

def receive : Database → List (List UInt8) → Except SnapshotError Database
  | db, [] => .ok db
  | db, chunk :: rest =>
    match decodePairs checksum chunk with
    | .error error => .error error
    | .ok (tag, pairs) =>
      match stagePairs db tag pairs with
      | .error error => .error error
      | .ok staged => receive staged rest

/-- The receiver's database after a stream of the sender's pinned one. -/
def transfer (target : Nat) (region : Region Bytes) (pinned receiver : Database) :
    Except SnapshotError Database :=
  match clearRange receiver region with
  | .error error => .error error
  | .ok cleared =>
    receive checksum cleared ((readPairs target pinned region).map fun chunk =>
      encodePairs checksum chunk.1 chunk.2)

end Transfer

section Reading

variable {db : Database} {region : Region Bytes} {family : Family} {entry : Pair}

theorem mem_scan {range : Bytes × Bytes} :
    entry ∈ scan map range ↔ entry ∈ map ∧ range.1 ≤ entry.1 ∧ entry.1 < range.2 := by
  unfold scan
  rw [mem_takeWhile_of_pairwise (map.fromKey_sorted range.1), SortedMap.mem_fromKey,
    decide_eq_true_eq, and_assoc]
  intro left _ right _ less kept
  rw [decide_eq_true_eq] at kept ⊢
  exact less.trans kept

theorem mem_regionPairs :
    entry ∈ regionPairs db region family ↔ entry ∈ db family ∧ inRegion region entry.1 = true := by
  unfold regionPairs inRegion
  simp only [mem_flatMap, mem_scan, any_eq_true, Bool.and_eq_true, decide_eq_true_eq]
  constructor
  · rintro ⟨range, isRange, mem, inside⟩
    exact ⟨mem, range, isRange, inside⟩
  · rintro ⟨mem, range, isRange, inside⟩
    exact ⟨range, isRange, mem, inside⟩

theorem fillChunks_flatten (target : Nat) (pairs : List Pair) :
    ∀ batch bytes, (fillChunks target batch bytes pairs).flatten = batch ++ pairs := by
  induction pairs with
  | nil =>
    intro batch bytes
    simp [fillChunks]
  | cons pair rest ih =>
    intro batch bytes
    rw [fillChunks]
    split
    · rw [flatten_cons, ih, nil_append, append_assoc]
      rfl
    · rw [ih, append_assoc]
      rfl

theorem shipped_of_family (family : Family) : ∃ tag, (tag, family) ∈ snapshotFamilies := by
  cases family <;> simp [snapshotFamilies]

theorem cfName_of_shipped {shipped : UInt8 × Family} (mem : shipped ∈ snapshotFamilies) :
    cfName shipped.1 = some shipped.2 := by
  simp only [snapshotFamilies, mem_cons, not_mem_nil, or_false] at mem
  rcases mem with rfl | rfl | rfl <;> rfl

theorem firstKeyIn_eq_none :
    firstKeyIn db region = none ↔ ∀ family, ∀ entry ∈ db family, inRegion region entry.1 = false := by
  unfold firstKeyIn
  rw [Option.map_eq_none_iff, head?_eq_none_iff, flatMap_eq_nil_iff]
  constructor
  · intro nothing family entry mem
    obtain ⟨tag, isShipped⟩ := shipped_of_family family
    by_contra inside
    have listed := mem_regionPairs.mpr ⟨mem, Bool.eq_true_of_not_eq_false inside⟩
    rw [nothing (tag, family) isShipped] at listed
    cases listed
  · intro outside shipped _
    apply eq_nil_iff_forall_not_mem.mpr
    intro entry listed
    obtain ⟨mem, inside⟩ := mem_regionPairs.mp listed
    rw [outside shipped.2 entry mem] at inside
    cases inside

theorem clearRange_ok (db : Database) (region : Region Bytes) :
    ∃ cleared, clearRange db region = .ok cleared ∧ ∀ family key, (cleared family).lookup key =
        if inRegion region key then none else (db family).lookup key := by
  have deleted : firstKeyIn (deleteRanges db region) region = none := by
    rw [firstKeyIn_eq_none]
    intro family entry mem
    have kept := (mem_filter.mp mem).2
    simpa using kept
  unfold clearRange
  cases first : firstKeyIn db region with
  | none =>
    refine ⟨db, rfl, fun family key => ?_⟩
    split
    case isTrue inside =>
      apply SortedMap.lookup_eq_none_iff.mpr
      intro value mem
      have outside := firstKeyIn_eq_none.mp first family (key, value) mem
      rw [inside] at outside
      cases outside
    case isFalse => rfl
  | some survivor =>
    dsimp only
    rw [deleted]
    refine ⟨deleteRanges db region, rfl, fun family key => ?_⟩
    have mem {value : Bytes} : (key, value) ∈ deleteRanges db region family ↔
        (key, value) ∈ db family ∧ inRegion region key = false := by
      rw [SortedMap.mem_def, SortedMap.mem_def]
      unfold deleteRanges
      rw [mem_filter, Bool.not_eq_true']
    split
    case isTrue inside =>
      apply SortedMap.lookup_eq_none_iff.mpr
      intro value held
      rw [(mem.mp held).2] at inside
      cases inside
    case isFalse outside =>
      ext value
      rw [SortedMap.lookup_eq_some_iff, SortedMap.lookup_eq_some_iff, mem]
      exact and_iff_left (Bool.eq_false_iff.mpr outside)

end Reading

section Receiving

variable (checksum : List UInt8 → UInt32) {source : Database}

theorem lookup_fold (pairs : List Pair) (all : ∀ pair ∈ pairs, pair ∈ map) (key : Bytes) :
    ∀ base : SortedMap Bytes Bytes,
      (pairs.foldl (fun held pair => held.insert pair.1 pair.2) base).lookup key =
        if key ∈ pairs.map Prod.fst then map.lookup key else base.lookup key := by
  induction pairs with
  | nil => exact fun base => rfl
  | cons pair rest ih =>
    intro base
    rw [foldl_cons, ih fun other mem => all other (.tail _ mem)]
    by_cases later : key ∈ rest.map Prod.fst
    · rw [if_pos later, map_cons, if_pos (mem_cons_of_mem _ later)]
    rw [if_neg later]
    by_cases same : key = pair.1
    · rw [same, SortedMap.lookup_insert_self, map_cons, if_pos mem_cons_self]
      exact (SortedMap.lookup_eq_some_iff.mpr (all pair (.head _))).symm
    · rw [SortedMap.lookup_insert_of_ne _ _ same, map_cons,
        if_neg fun mem => (mem_cons.mp mem).elim same later]

variable (stream : List (UInt8 × List Pair))

def Names (family : Family) (key : Bytes) : Prop :=
  ∃ chunk ∈ stream, cfName chunk.1 = some family ∧ key ∈ chunk.2.map Prod.fst

theorem stagePairs_ok {named : Family} (shipped : cfName tag = some named)
    (all : ∀ pair ∈ pairs, pair ∈ source named) (db : Database) :
    ∃ staged, stagePairs db tag pairs = .ok staged ∧ ∀ family key, (staged family).lookup key =
      if family = named ∧ key ∈ pairs.map Prod.fst then (source family).lookup key
      else (db family).lookup key := by
  unfold stagePairs
  by_cases isEmpty : pairs = []
  · refine ⟨db, if_pos isEmpty, fun family key => ?_⟩
    rw [isEmpty, map_nil, if_neg fun both => not_mem_nil both.2]
  rw [if_neg isEmpty, shipped]
  refine ⟨_, rfl, fun family key => ?_⟩
  by_cases isNamed : family = named
  · subst isNamed
    rw [if_pos rfl, lookup_fold pairs all key]
    simp only [true_and]
  · rw [if_neg isNamed, if_neg fun both => isNamed both.1]

/-- What a stream of the source's pairs leaves: the source at the keys it names. -/
theorem receive_stream
    (each : ∀ chunk ∈ stream, ∃ named, cfName chunk.1 = some named ∧ Small chunk.2 ∧
      ∀ pair ∈ chunk.2, pair ∈ source named) :
    ∀ db, ∃ result, receive checksum db (stream.map fun chunk =>
        encodePairs checksum chunk.1 chunk.2) = .ok result ∧ ∀ family key,
      (Names stream family key → (result family).lookup key = (source family).lookup key) ∧
      (¬ Names stream family key → (result family).lookup key = (db family).lookup key) := by
  induction stream with
  | nil =>
    intro db
    refine ⟨db, rfl, fun family key => ⟨?_, fun _ => rfl⟩⟩
    rintro ⟨chunk, mem, _⟩
    cases mem
  | cons chunk rest ih =>
    intro db
    obtain ⟨named, shipped, small, all⟩ := each chunk (.head _)
    obtain ⟨staged, isStaged, held⟩ := stagePairs_ok shipped all db
    obtain ⟨result, received, same⟩ := ih (fun other mem => each other (.tail _ mem)) staged
    refine ⟨result, ?_, fun family key => ?_⟩
    · rw [map_cons, receive, decodePairs_encodePairs checksum shipped small]
      dsimp only
      rw [isStaged]
      exact received
    · have names : Names (chunk :: rest) family key ↔
          (family = named ∧ key ∈ chunk.2.map Prod.fst) ∨ Names rest family key := by
        unfold Names
        rw [exists_mem_cons_iff, shipped]
        constructor
        · exact Or.imp_left fun both => ⟨(Option.some.inj both.1).symm, both.2⟩
        · exact Or.imp_left fun both => ⟨congrArg some both.1.symm, both.2⟩
      by_cases later : Names rest family key
      · exact ⟨fun _ => (same family key).1 later,
          fun unnamed => absurd (names.mpr (.inr later)) unnamed⟩
      have step := (same family key).2 later
      rw [held family key] at step
      constructor
      · intro named'
        rw [step, if_pos ((names.mp named').resolve_right later)]
      · intro unnamed
        rw [step, if_neg fun both => unnamed (names.mpr (.inl both))]

end Receiving

/-! ## Keys of the region -/

section Keys

variable {region : Region Bytes}

theorem inRegion_iff :
    inRegion region key = true ↔ ∃ range ∈ physicalRanges region, range.1 ≤ key ∧ key < range.2 := by
  unfold inRegion
  simp only [any_eq_true, Bool.and_eq_true, decide_eq_true_eq]

variable {user left right : Bytes}

theorem inRange_iff : region.contains user = true ↔
    ¬ user < region.startKey ∧ (region.endKey = [] ∨ user < region.endKey) := by
  rw [Region.contains_iff, InRange, not_lt]
  exact Iff.rfl

theorem cons_lt_same {head : UInt8} : head :: left < head :: right ↔ left < right := by
  rw [cons_lt_cons_iff]
  exact ⟨fun either => either.elim (fun less => absurd less (lt_irrefl head)) And.right,
    fun less => .inr ⟨rfl, less⟩⟩

theorem cons_lt_of_head {first second : UInt8} (less : first < second) :
    first :: left < second :: right := cons_lt_cons_iff.mpr (.inl less)

theorem inRegion_raw (user : Bytes) :
    inRegion region (rawNamespace :: user) = true ↔ region.contains user = true := by
  rw [inRegion_iff, inRange_iff]
  have above : ¬ (if region.startKey = [] then [txnNamespace]
      else txnNamespace :: encodeBytes region.startKey) ≤ rawNamespace :: user := by
    rw [not_le]
    split <;> exact cons_lt_of_head (by decide)
  unfold physicalRanges physicalRangesOf
  simp only [mem_cons, not_mem_nil, or_false, exists_eq_or_imp, exists_eq_left, above, false_and]
  rw [← not_lt, cons_lt_same]
  apply and_congr_right'
  by_cases unbounded : region.endKey = []
  · rw [if_pos unbounded]
    exact ⟨fun _ => .inl unbounded, fun _ => cons_lt_of_head (by decide)⟩
  · rw [if_neg unbounded, cons_lt_same]
    exact ⟨.inr, fun either => either.resolve_left unbounded⟩

theorem append_lt_same (shared : Bytes) : shared ++ left < shared ++ right ↔ left < right := by
  induction shared with
  | nil => rfl
  | cons head rest ih => rw [cons_append, cons_append, cons_lt_same, ih]

theorem encoded_lt {bound : Bytes} (suffix : Bytes) :
    encodeBytes user ++ suffix < encodeBytes bound ↔ user < bound := by
  constructor
  · intro less
    by_contra notLess
    rcases lt_or_eq_of_le (not_lt.mp notLess) with below | same
    · have reverse := encodeBytes_lt below [] suffix
      rw [append_nil] at reverse
      exact lt_asymm less reverse
    · rw [same, ← append_nil (encodeBytes user), append_assoc, append_lt_same] at less
      exact not_lt_nil _ less
  · intro less
    have encoded := encodeBytes_lt less suffix []
    rwa [append_nil] at encoded

theorem inRegion_txn (user suffix : Bytes) :
    inRegion region (txnNamespace :: (encodeBytes user ++ suffix)) = true ↔
      region.contains user = true := by
  rw [inRegion_iff, inRange_iff]
  have below : ¬ txnNamespace :: (encodeBytes user ++ suffix) <
      (if region.endKey = [] then [rawNamespace + 1] else rawNamespace :: region.endKey) := by
    rw [not_lt]
    split <;> exact le_of_lt (cons_lt_of_head (by decide))
  unfold physicalRanges physicalRangesOf
  simp only [mem_cons, not_mem_nil, or_false, exists_eq_or_imp, exists_eq_left, below,
    and_false, false_or]
  apply and_congr
  · by_cases unbounded : region.startKey = []
    · rw [if_pos unbounded, unbounded]
      refine ⟨fun _ => not_lt_nil user, fun _ => ?_⟩
      rw [← not_lt, cons_lt_same]
      exact not_lt_nil _
    · rw [if_neg unbounded, ← not_lt, cons_lt_same, not_iff_not]
      exact encoded_lt suffix
  · by_cases unbounded : region.endKey = []
    · rw [if_pos unbounded]
      exact ⟨fun _ => .inl unbounded, fun _ => cons_lt_of_head (by decide)⟩
    · rw [if_neg unbounded, cons_lt_same, encoded_lt]
      exact ⟨.inr, fun either => either.resolve_left unbounded⟩

end Keys

/-! ## The copy -/

section Copy

variable {pinned : Database} {region : Region Bytes} {target : Nat}

theorem mem_readPairs {chunk : UInt8 × List Pair} : chunk ∈ readPairs target pinned region ↔
    ∃ family, (chunk.1, family) ∈ snapshotFamilies ∧
      chunk.2 ∈ fillChunks target [] 0 (regionPairs pinned region family) := by
  unfold readPairs
  rw [mem_flatMap]
  constructor
  · rintro ⟨⟨tag, family⟩, isShipped, mem⟩
    obtain ⟨pairs, isChunk, rfl⟩ := mem_map.mp mem
    exact ⟨family, isShipped, isChunk⟩
  · rintro ⟨family, isShipped, isChunk⟩
    exact ⟨(chunk.1, family), isShipped, mem_map.mpr ⟨chunk.2, isChunk, rfl⟩⟩

variable {chunk : List Pair}

theorem mem_of_chunk (isChunk : chunk ∈ fillChunks target [] 0 pairs) (mem : pair ∈ chunk) :
    pair ∈ pairs := by
  have flat := fillChunks_flatten target pairs [] 0
  rw [nil_append] at flat
  rw [← flat]
  exact mem_flatten.mpr ⟨chunk, isChunk, mem⟩

theorem small_of_chunk (small : Small pairs) (isChunk : chunk ∈ fillChunks target [] 0 pairs) :
    Small chunk := by
  have flat := fillChunks_flatten target pairs [] 0
  rw [nil_append] at flat
  have bound := ((sublist_flatten_of_mem isChunk).flatMap putPair).length_le
  rw [flat] at bound
  unfold Small at small ⊢
  omega

theorem names_readPairs : Names (readPairs target pinned region) family key ↔
      inRegion region key = true ∧ ∃ value, (key, value) ∈ pinned family := by
  constructor
  · rintro ⟨chunk, isRead, named, mem⟩
    obtain ⟨held, isShipped, isChunk⟩ := mem_readPairs.mp isRead
    obtain ⟨⟨_, value⟩, isPair, rfl⟩ := mem_map.mp mem
    have same : held = family := by
      have name := cfName_of_shipped isShipped
      rw [named] at name
      exact (Option.some.inj name).symm
    subst same
    obtain ⟨isHeld, inside⟩ := mem_regionPairs.mp (mem_of_chunk isChunk isPair)
    exact ⟨inside, value, isHeld⟩
  · rintro ⟨inside, value, isHeld⟩
    obtain ⟨tag, isShipped⟩ := shipped_of_family family
    have listed := mem_regionPairs.mpr ⟨isHeld, inside⟩
    have flat := fillChunks_flatten target (regionPairs pinned region family) [] 0
    rw [nil_append] at flat
    rw [← flat] at listed
    obtain ⟨chunk, isChunk, mem⟩ := mem_flatten.mp listed
    exact ⟨(tag, chunk), mem_readPairs.mpr ⟨family, isShipped, isChunk⟩,
      cfName_of_shipped isShipped, mem_map.mpr ⟨(key, value), mem, rfl⟩⟩

/-- A transfer at any target size gives the receiver the sender's pinned pairs of the region and
leaves its other keys alone, where the region's raw and transactional keys are those of its user
keys; and a header that is sent is read back. -/
theorem snapshot_copies_region (checksum : List UInt8 → UInt32) (target : Nat)
    (region : Region Bytes) (pinned receiver : Database)
    (small : ∀ family, Small (regionPairs pinned region family)) :
    (∃ result, transfer checksum target region pinned receiver = .ok result ∧ ∀ family key,
      (result family).lookup key =
        if inRegion region key then (pinned family).lookup key
        else (receiver family).lookup key) ∧
    (∀ user, inRegion region (rawNamespace :: user) = region.contains user) ∧
    (∀ user suffix, inRegion region
      (txnNamespace :: (encodeBytes user ++ suffix)) = region.contains user) ∧
    ∀ header, Sendable header → SnapshotHeader.decode header.encode = .ok header := by
  refine ⟨?_, fun user => Bool.eq_iff_iff.mpr (inRegion_raw user),
    fun user suffix => Bool.eq_iff_iff.mpr (inRegion_txn user suffix),
    fun header sendable => header_decode_encode sendable⟩
  obtain ⟨cleared, isCleared, clearedAt⟩ := clearRange_ok receiver region
  have each : ∀ chunk ∈ readPairs target pinned region, ∃ named, cfName chunk.1 = some named ∧
      Small chunk.2 ∧ ∀ pair ∈ chunk.2, pair ∈ pinned named := by
    intro chunk isRead
    obtain ⟨family, isShipped, isChunk⟩ := mem_readPairs.mp isRead
    exact ⟨family, cfName_of_shipped isShipped, small_of_chunk (small family) isChunk,
      fun pair member => (mem_regionPairs.mp (mem_of_chunk isChunk member)).1⟩
  obtain ⟨result, received, same⟩ := receive_stream checksum _ each cleared
  refine ⟨result, ?_, fun family key => ?_⟩
  · unfold transfer
    rw [isCleared]
    exact received
  by_cases named : Names (readPairs target pinned region) family key
  · rw [(same family key).1 named, if_pos (names_readPairs.mp named).1]
  rw [(same family key).2 named, clearedAt family key]
  split
  case isTrue inside =>
    -- A key of the region that the stream does not name is one the sender does not hold.
    apply (SortedMap.lookup_eq_none_iff.mpr _).symm
    intro value held
    exact named (names_readPairs.mpr ⟨inside, value, held⟩)
  case isFalse => rfl

/-- The user keys below `m`. -/
def smallRegion : Region Bytes := ⟨7, [], [109], [⟨1, 1, .voter⟩], ⟨1, 1⟩⟩

/-- The raw key `a` on the sender, and the raw keys `a` and `z` on the receiver. -/
def smallSender : Database
  | .default => SortedMap.empty.insert [114, 97] [1]
  | _ => SortedMap.empty

def smallReceiver : Database
  | .default => (SortedMap.empty.insert [114, 97] [2]).insert [114, 122] [3]
  | _ => SortedMap.empty

theorem smallSender_small (family : Family) : Small (regionPairs smallSender smallRegion family) := by
  cases family with
  | default =>
    rw [show regionPairs smallSender smallRegion .default = [([114, 97], [1])] from rfl]
    simp [Small, putPair, putBytes, putVarint]
  | lock | write => exact Nat.lt_of_sub_eq_succ rfl

theorem small_region_copied :
    ∃ result, transfer (fun _ => 0) 1 smallRegion smallSender smallReceiver = .ok result ∧
      (result .default).lookup [114, 97] = some [1] ∧
      (result .default).lookup [114, 122] = some [3] := by
  obtain ⟨⟨result, isResult, same⟩, raw, _, _⟩ :=
    snapshot_copies_region (fun _ => 0) 1 smallRegion smallSender smallReceiver smallSender_small
  refine ⟨result, isResult, ?_, ?_⟩
  · rw [same, show inRegion smallRegion [114, 97] = true from raw [97], if_pos rfl]
    rfl
  · rw [same, show inRegion smallRegion [114, 122] = false from raw [122]]
    rfl

def emptyHeader : SnapshotHeader := ⟨smallRegion, ⟨0, 1, ⟨[1], []⟩⟩⟩

/-- A header is not always read back: that of the empty snapshot is refused. -/
theorem empty_header_refused : SnapshotHeader.decode emptyHeader.encode ≠ .ok emptyHeader := by
  have fits : Fitting emptyHeader := by
    refine ⟨⟨by decide, by decide, by decide, by decide, by decide, by decide, by decide,
      by decide, by decide⟩, by decide, by decide, by decide, by decide⟩
  unfold SnapshotHeader.decode decodeWhole
  rw [(reads_header fits).whole]
  intro same
  cases same

end Copy

end Esker.Store.Snapshots
