import Esker.Pd.Operators

/-!
Contract: the balancing of regions and leaders comes to rest (`esker-pd/src/balance.rs`).

Owns: a whole move, which is the operators that `balance_for` gives until a region has its target
of voters again, and the measure that every whole move lowers.

Does not own: what is asked about while an operator is in flight.
-/

namespace Esker.Pd.Operators

open Esker.Store (Peer)
open List

/-! ## How crowded the places are -/

section Crowding

variable {α : Type} [DecidableEq α]

/-- For each item, the items that share its place: the sum of the squares of the loads. -/
def crowding (places : Multiset α) : Nat := (places.map places.count).sum

theorem crowding_cons (place : α) (places : Multiset α) :
    crowding (place ::ₘ places) = crowding places + 2 * places.count place + 1 := by
  have counted (items : Multiset α) :
      (items.map fun item => if item = place then 1 else 0).sum = items.count place := by
    induction items using Multiset.induction_on with
    | empty => rfl
    | cons item items ih =>
      rw [Multiset.map_cons, Multiset.sum_cons, ih, Multiset.count_cons, Nat.add_comm]
      simp only [eq_comm]
  have shared : (places.map fun item => (place ::ₘ places).count item).sum =
      crowding places + places.count place := by
    simp only [Multiset.count_cons, Multiset.sum_map_add, counted, crowding]
  rw [crowding, Multiset.map_cons, Multiset.sum_cons, shared, Multiset.count_cons_self]
  omega

end Crowding

theorem le_of_maxByKey {α : Type} {key : α → Int × Int} {items : List α} {best : α}
    (picked : maxByKey key items = some best) : ∀ item ∈ items, (key item).1 ≤ (key best).1 := by
  -- the fold from any start, whose own item is outdone as well
  have above : ∀ start, (items.foldl (fun best item => best.elim (some item) fun held =>
      if !before (key item) (key held) then some item else some held) start) = some best →
      (∀ item ∈ items, (key item).1 ≤ (key best).1) ∧
        ∀ held, start = some held → (key held).1 ≤ (key best).1 := by
    clear picked
    induction items with
    | nil =>
      rintro _ rfl
      exact ⟨nofun, by rintro _ ⟨⟩; exact le_rfl⟩
    | cons first rest ih =>
      intro start found
      obtain ⟨later, outdone⟩ := ih _ found
      rw [forall_mem_cons]
      cases start with
      | none => exact ⟨⟨outdone first rfl, later⟩, nofun⟩
      | some held =>
        simp only [Option.elim_some] at outdone
        by_cases less : before (key first) (key held) = true
        · rw [less] at outdone
          have least := outdone held rfl
          refine ⟨⟨?_, later⟩, fun _ same => Option.some.inj same ▸ least⟩
          simp only [before, Bool.or_eq_true, Bool.and_eq_true, decide_eq_true_eq] at less
          omega
        · rw [Bool.eq_false_iff.mpr less] at outdone
          have least := outdone first rfl
          refine ⟨⟨least, later⟩, fun _ same => ?_⟩
          simp only [before, Bool.or_eq_true, Bool.and_eq_true, decide_eq_true_eq] at less
          rw [← Option.some.inj same]
          omega
  exact (above none picked).1

/-! ## What is moved -/

namespace Record

variable (record : Record)

def voters : List Peer := record.peers.filter isVoter

def leaderStore : Option Nat :=
  (record.peers.find? fun peer => decide (peer.peerId = record.leaderPeerId)).map (·.storeId)

/-- What the stores have done when an operator is over. A peer that was added votes by then. -/
def executed (newPeerId : Nat) : Balance → Record
  | .transferLeader toPeerId _ _ _ => { record with leaderPeerId := toPeerId }
  | .addPeer storeId => { record with peers := record.peers ++ [⟨storeId, newPeerId, .voter⟩] }
  | .removePeer peerId _ =>
    { record with peers := record.peers.filter fun peer => decide (peer.peerId ≠ peerId) }

end Record

variable (regions : Multiset Record)

/-- The store of every peer of every region. -/
def homes : Multiset Nat :=
  regions.bind fun record => (record.peers.map (·.storeId) : Multiset Nat)

def leads : Multiset Nat := regions.filterMap Record.leaderStore

/-- The counts of a view are exact, the peers of a region have ids of their own, and the target is
the same for all views. -/
structure Sees (target : Nat) (cluster : Cluster) (record : Record) (others : Multiset Record) :
    Prop where
  target : cluster.targetReplicas = target
  regions : ∀ storeId, cluster.effectiveRegions storeId = (homes (record ::ₘ others)).count storeId
  leaders : ∀ storeId, cluster.effectiveLeaders storeId = (leads (record ::ₘ others)).count storeId
  distinct : (record.peers.map (·.peerId)).Nodup

section

variable (target : Nat) (others : Multiset Record)

/-- `balance_for` is asked about a region, and what it says is executed. -/
inductive Asked (record : Record) (balance : Balance) : Record → Prop where
  | intro (cluster : Cluster) (newPeerId : Nat) (sees : Sees target cluster record others)
      (answer : record.balanceFor cluster = some balance) :
      Asked record balance (record.executed newPeerId balance)

/-- The end of a replica move: leadership leaves the peer that goes, if it has it, and the peer
goes. -/
inductive Finishes : Record → Record → Prop where
  | remove {record last peerId fromStore}
      (asked : Asked target others record (.removePeer peerId fromStore) last) :
      Finishes record last
  | transfer {record next last toPeerId fromStore toStore}
      (asked : Asked target others record (.transferLeader toPeerId fromStore toStore true) next)
      (rest : Finishes next last) : Finishes record last

/-- A whole move. A region may have voters to spare from the start, and one that lacks voters has
none to spare after one is added. -/
inductive Move (record last : Record) : Prop where
  | leader {toPeerId fromStore toStore}
      (asked : Asked target others record (.transferLeader toPeerId fromStore toStore false) last)
  | finish (rest : Finishes target others record last)
  | add {storeId} (asked : Asked target others record (.addPeer storeId) last)
      (few : last.voters.length ≤ target)
  | replica {next storeId} (asked : Asked target others record (.addPeer storeId) next)
      (many : target < next.voters.length) (rest : Finishes target others next last)

end

/-- Some region is asked about and its whole move executed. -/
def Step (target : Nat) (regions later : Multiset Record) : Prop :=
  ∃ others record last, regions = record ::ₘ others ∧ later = last ::ₘ others ∧
    Move target others record last

/-! ## What a move does -/

section Moves

variable {target : Nat} {others : Multiset Record} {record last : Record}

theorem voters_added (newPeerId storeId : Nat) :
    (record.executed newPeerId (.addPeer storeId)).voters =
      record.voters ++ [⟨storeId, newPeerId, .voter⟩] :=
  filter_append _ _

theorem homes_cons : homes (record ::ₘ others) =
    (record.peers.map (·.storeId) : Multiset Nat) + homes others :=
  Multiset.cons_bind _ _ _

theorem homes_added (newPeerId storeId : Nat) :
    homes (record.executed newPeerId (.addPeer storeId) ::ₘ others) =
      storeId ::ₘ homes (record ::ₘ others) := by
  rw [homes_cons, homes_cons, ← Multiset.cons_add, Record.executed, map_append,
    ← Multiset.coe_add, Multiset.cons_coe]
  congr 1
  exact Multiset.coe_eq_coe.mpr (perm_append_singleton _ _)

/-- What `balance_for` has seen to when it gives an operator. -/
def Due (cluster : Cluster) (record : Record) : Balance → Prop
  | .addPeer storeId => record.voters.length ≤ cluster.targetReplicas ∧
      ∃ busiest ∈ record.voters,
        cluster.effectiveRegions storeId + 2 ≤ cluster.effectiveRegions busiest.storeId
  | .removePeer peerId _ => cluster.targetReplicas < record.voters.length ∧
      ∃ heaviest ∈ record.voters, heaviest.peerId = peerId ∧ ∀ voter ∈ record.voters,
        cluster.effectiveRegions voter.storeId ≤ cluster.effectiveRegions heaviest.storeId
  | .transferLeader _ _ _ true => True
  | .transferLeader toPeerId fromStore toStore false => record.leaderStore = some fromStore ∧
      (∃ candidate ∈ record.peers, candidate.peerId = toPeerId ∧ candidate.storeId = toStore) ∧
      cluster.effectiveLeaders toStore + 2 ≤ cluster.effectiveLeaders fromStore

theorem balanceFor_due {cluster : Cluster} {balance : Balance}
    (answer : record.balanceFor cluster = some balance) : Due cluster record balance := by
  rcases Option.or_eq_some_iff.mp answer with found | ⟨_, found⟩
  · rw [Record.regionBalance] at found
    split_ifs at found with shed repair
    · obtain ⟨heaviest, picked, chosen⟩ := Option.bind_eq_some_iff.mp found
      split_ifs at chosen
      · obtain ⟨_, _, rfl⟩ := Option.map_eq_some_iff.mp chosen
        trivial
      · cases chosen
        exact ⟨shed.1, heaviest, mem_of_pick picked, rfl, le_of_maxByKey picked⟩
    · obtain ⟨busiest, picked, chosen⟩ := Option.bind_eq_some_iff.mp found
      obtain ⟨quietest, _, chosen⟩ := Option.bind_eq_some_iff.mp chosen
      split_ifs at chosen with near
      cases chosen
      have few : ¬cluster.targetReplicas < record.voters.length := by
        intro many
        exact shed ⟨many, by simpa using repair⟩
      have votes := (mem_filter.mp (mem_of_pick picked)).1
      exact ⟨not_lt.mp few, busiest, votes, by omega⟩
  · rw [Record.leaderBalance] at found
    split_ifs at found
    obtain ⟨leader, isLeader, chosen⟩ := Option.bind_eq_some_iff.mp found
    split_ifs at chosen
    obtain ⟨candidate, picked, chosen⟩ := Option.bind_eq_some_iff.mp chosen
    split_ifs at chosen with near
    cases chosen
    have isPeer := (mem_filter.mp (mem_filter.mp (mem_of_pick picked)).1).1
    refine ⟨?_, ⟨candidate, isPeer, rfl, rfl⟩, by omega⟩
    rw [Record.leaderStore, isLeader]
    rfl

theorem perm_removed (distinct : (record.peers.map (·.peerId)).Nodup) {peer : Peer}
    (isPeer : peer ∈ record.peers) :
    record.peers.Perm
      (peer :: record.peers.filter fun other => decide (other.peerId ≠ peer.peerId)) := by
  have same : record.peers.filter (fun other => decide (other.peerId ≠ peer.peerId)) =
      record.peers.erase peer := by
    rw [distinct.of_map.erase_eq_filter]
    apply filter_congr
    intro other isOther
    rw [Bool.eq_iff_iff, decide_eq_true_eq, bne_iff_ne, not_iff_not]
    exact ⟨eq_of_peerId distinct isOther isPeer, congrArg _⟩
  rw [same]
  exact perm_cons_erase isPeer

theorem Finishes.spec (finishes : Finishes target others record last) :
    target < record.voters.length ∧ record.voters.length = last.voters.length + 1 ∧
      ∃ storeId, homes (record ::ₘ others) = storeId ::ₘ homes (last ::ₘ others) ∧
        ∀ voter ∈ record.voters, (homes (record ::ₘ others)).count voter.storeId ≤
          (homes (record ::ₘ others)).count storeId := by
  induction finishes with
  | @remove record last _ _ asked =>
    obtain ⟨cluster, newPeerId, sees, answer⟩ := asked
    obtain ⟨many, heaviest, votes, rfl, most⟩ := balanceFor_due answer
    have ⟨isPeer, votes⟩ := mem_filter.mp votes
    have removed := perm_removed sees.distinct isPeer
    simp only [sees.regions, Nat.cast_le] at most
    refine ⟨sees.target ▸ many, ?_, heaviest.storeId, ?_, most⟩
    · have voters := (removed.filter isVoter).length_eq
      rw [filter_cons_of_pos votes] at voters
      exact voters
    rw [homes_cons, homes_cons, ← Multiset.cons_add, Multiset.cons_coe]
    congr 1
    exact Multiset.coe_eq_coe.mpr (removed.map _)
  | transfer asked _ ih =>
    -- leadership moves, the peers stay
    obtain ⟨_, _, _, _⟩ := asked
    simp only [homes_cons] at ih ⊢
    exact ih

theorem leaderStore_led (distinct : (record.peers.map (·.peerId)).Nodup) {peer : Peer}
    (isPeer : peer ∈ record.peers) (newPeerId fromStore : Nat) :
    (record.executed newPeerId
      (.transferLeader peer.peerId fromStore peer.storeId false)).leaderStore =
        some peer.storeId := by
  change (record.peers.find? fun other => decide (other.peerId = peer.peerId)).map _ = _
  cases search : record.peers.find? fun other => decide (other.peerId = peer.peerId) with
  | none => exact absurd (decide_eq_true rfl) (find?_eq_none.mp search peer isPeer)
  | some other =>
    have same := find?_some search
    rw [decide_eq_true_eq] at same
    rw [eq_of_peerId distinct (mem_of_find?_eq_some search) isPeer same]
    rfl

/-! ## Coming to rest -/

/-- First the voters that regions lack, then how crowded the stores are with peers, then with
leaders. -/
def unrest (target : Nat) (regions : Multiset Record) : Nat ×ₗ Nat ×ₗ Nat :=
  toLex ((regions.map fun record => target - record.voters.length).sum,
    toLex (crowding (homes regions), crowding (leads regions)))

theorem unrest_lt_of_lack (less : target - last.voters.length < target - record.voters.length) :
    unrest target (last ::ₘ others) < unrest target (record ::ₘ others) := by
  apply Prod.Lex.toLex_lt_toLex.mpr
  left
  simpa using less

theorem unrest_lt_of_homes (same : target - last.voters.length = target - record.voters.length)
    (less : crowding (homes (last ::ₘ others)) < crowding (homes (record ::ₘ others))) :
    unrest target (last ::ₘ others) < unrest target (record ::ₘ others) := by
  apply Prod.Lex.toLex_lt_toLex.mpr
  right
  exact ⟨by simp [same], Prod.Lex.toLex_lt_toLex.mpr (.inl less)⟩

theorem unrest_lt_of_leads (same : last.peers = record.peers)
    (less : crowding (leads (last ::ₘ others)) < crowding (leads (record ::ₘ others))) :
    unrest target (last ::ₘ others) < unrest target (record ::ₘ others) := by
  apply Prod.Lex.toLex_lt_toLex.mpr
  right
  refine ⟨by simp [Record.voters, same], Prod.Lex.toLex_lt_toLex.mpr (.inr ⟨?_, less⟩)⟩
  rw [homes_cons, homes_cons, same]

theorem unrest_lt_of_move (move : Move target others record last) :
    unrest target (last ::ₘ others) < unrest target (record ::ₘ others) := by
  cases move with
  | leader asked =>
    obtain ⟨cluster, newPeerId, sees, answer⟩ := asked
    obtain ⟨leader, ⟨candidate, isPeer, rfl, rfl⟩, gap⟩ := balanceFor_due answer
    have led := leaderStore_led sees.distinct isPeer newPeerId
    rw [sees.leaders, sees.leaders, leads, Multiset.filterMap_cons_some _ _ _ leader,
      Multiset.count_cons_self, Multiset.count_cons] at gap
    refine unrest_lt_of_leads rfl ?_
    rw [leads, leads, Multiset.filterMap_cons_some _ _ _ leader,
      Multiset.filterMap_cons_some _ _ _ (led _), crowding_cons, crowding_cons]
    omega
  | finish rest =>
    obtain ⟨many, voters, storeId, shed, _⟩ := rest.spec
    refine unrest_lt_of_homes (by omega) ?_
    rw [shed, crowding_cons]
    omega
  | add asked few =>
    obtain ⟨cluster, newPeerId, sees, answer⟩ := asked
    rw [voters_added, length_append, length_singleton] at few
    apply unrest_lt_of_lack
    rw [voters_added, length_append, length_singleton]
    omega
  | @replica _ added asked many rest =>
    obtain ⟨few, voters, storeId, shed, most⟩ := rest.spec
    obtain ⟨cluster, newPeerId, sees, answer⟩ := asked
    obtain ⟨few, busiest, votes, gap⟩ := balanceFor_due answer
    rw [sees.target] at few
    rw [sees.regions, sees.regions] at gap
    rw [voters_added, length_append, length_singleton] at many voters
    have above := most busiest (by rw [voters_added]; exact mem_append_left _ votes)
    rw [homes_added] at shed
    rw [homes_added, shed, Multiset.count_cons_self, ← shed] at above
    have grown := Multiset.count_le_count_cons busiest.storeId added (homes (record ::ₘ others))
    refine unrest_lt_of_homes (by omega) ?_
    have same := congrArg crowding shed
    rw [crowding_cons, crowding_cons] at same
    omega

end Moves

/-- Balancing settles: whatever the order in which regions are asked about and wherever their peers
and leaders are, no sequence of whole moves goes on for ever. -/
theorem balancing_settles (target : Nat) (placements : Nat → Multiset Record) :
    ∃ n, ¬Step target (placements n) (placements (n + 1)) := by
  by_contra endless
  rw [not_exists] at endless
  obtain ⟨_, ⟨n, rfl⟩, least⟩ := wellFounded_lt.has_min
    (Set.range fun n => unrest target (placements n)) ⟨_, 0, rfl⟩
  obtain ⟨others, record, last, before, after, move⟩ := not_not.mp (endless n)
  apply least _ ⟨n + 1, rfl⟩
  dsimp only
  rw [before, after]
  exact unrest_lt_of_move move

end Esker.Pd.Operators
