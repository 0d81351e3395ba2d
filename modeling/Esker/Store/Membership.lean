import Esker.Store.Apply
import Esker.Store.RaftLog

/-!
Contract: the three memberships a peer keeps on disk and in memory
(`PeerCore::stage_conf_change`, `PeerCore::compact` and the peer's start in
`esker-store/src/peer.rs`, `region::membership` in `esker-store/src/region.rs`).

Owns: the membership a region record says, how an applied change moves it and the copy in
memory, what a compaction writes as the log's anchor, and at which index each of the three
is right.

Does not own: the membership in force in the core, which moves when an entry is appended.
-/

namespace Esker.Store

open Esker.Consensus List

/-! ## Normal forms -/

variable {ids : List Nat} {conf : ConfState} {K : Type} {peers : List Peer} {change : ConfChange}
  {region : Region K}

variable {id : Nat}

theorem mem_dedupRuns : id ∈ dedupRuns ids ↔ id ∈ ids := by
  fun_induction dedupRuns ids with
  | case1 => rfl
  | case2 only => rfl
  | case3 second rest ih =>
    rw [ih]
    simp
  | case4 first second rest differs ih =>
    rw [mem_cons, ih, ← mem_cons]

theorem dedupRuns_sorted (sorted : ids.Pairwise (· ≤ ·)) : (dedupRuns ids).Pairwise (· < ·) := by
  fun_induction dedupRuns ids with
  | case1 => exact List.Pairwise.nil
  | case2 only => exact pairwise_singleton _ _
  | case3 second rest ih =>
    exact ih (pairwise_cons.mp sorted).2
  | case4 first second rest differs ih =>
    obtain ⟨least, tailSorted⟩ := pairwise_cons.mp sorted
    rw [pairwise_cons]
    refine ⟨?_, ih tailSorted⟩
    intro id mem
    rw [mem_dedupRuns] at mem
    have above : first < second :=
      lt_of_le_of_ne (least second mem_cons_self) differs
    rcases mem_cons.mp mem with rfl | behind
    · exact above
    · exact above.trans_le ((pairwise_cons.mp tailSorted).1 id behind)

theorem mem_sortDedup : id ∈ sortDedup ids ↔ id ∈ ids := by
  rw [sortDedup, mem_dedupRuns, mem_insertionSort]

theorem sortDedup_sorted (ids : List Nat) : (sortDedup ids).Pairwise (· < ·) :=
  dedupRuns_sorted (pairwise_insertionSort (· ≤ ·) ids)

theorem normalize_congr {other : ConfState} (voters : ∀ id, id ∈ conf.voters ↔ id ∈ other.voters)
    (learners : ∀ id, id ∉ conf.voters → (id ∈ conf.learners ↔ id ∈ other.learners)) :
    conf.normalize = other.normalize := by
  have sameVoters : sortDedup conf.voters = sortDedup other.voters := by
    refine eq_of_sorted_of_mem_iff (fun _ _ => Nat.lt_asymm) (sortDedup_sorted _) (sortDedup_sorted _) ?_
    intro id
    rw [mem_sortDedup, mem_sortDedup, voters]
  rw [ConfState.normalize, ConfState.normalize, sameVoters]
  congr 1
  refine eq_of_sorted_of_mem_iff (fun _ _ => Nat.lt_asymm) ((sortDedup_sorted _).filter _)
    ((sortDedup_sorted _).filter _) ?_
  intro id
  simp only [mem_filter, mem_sortDedup, contains_iff_mem, Bool.not_eq_true', ← Bool.not_eq_true]
  constructor
  · rintro ⟨listed, notVoter⟩
    exact ⟨(learners id ((voters id).not.mpr notVoter)).mp listed, notVoter⟩
  · rintro ⟨listed, notVoter⟩
    exact ⟨(learners id ((voters id).not.mpr notVoter)).mpr listed, notVoter⟩

theorem mem_normalize_voters : id ∈ conf.normalize.voters ↔ id ∈ conf.voters := mem_sortDedup

theorem mem_normalize_learners :
    id ∈ conf.normalize.learners ↔ id ∈ conf.learners ∧ id ∉ conf.voters := by
  simp only [ConfState.normalize, mem_filter, mem_sortDedup, contains_iff_mem,
    Bool.not_eq_true', ← Bool.not_eq_true]

theorem normalize_normalize (conf : ConfState) : conf.normalize.normalize = conf.normalize := by
  refine normalize_congr (fun id => mem_normalize_voters) ?_
  intro id notVoter
  rw [mem_normalize_voters] at notVoter
  rw [mem_normalize_learners]
  exact and_iff_left notVoter

/-! ## The membership of a record -/

/-- `region::membership`: the voters and both kinds of learners a region record lists. -/
def membership {K : Type} (region : Region K) : ConfState :=
  ConfState.normalize
    { voters := (region.peers.filter fun peer => decide (peer.role = .voter)).map Peer.peerId
      learners := (region.peers.filter fun peer =>
        decide (peer.role = .learner ∨ peer.role = .columnarLearner)).map Peer.peerId }

/-- The peer list names `id` in this role. -/
def ListsAs (peers : List Peer) (id : Nat) (role : PeerRole) : Prop :=
  ∃ peer ∈ peers, peer.peerId = id ∧ peer.role = role

theorem mem_membership_voters :
    id ∈ (membership region).voters ↔ ListsAs region.peers id .voter := by
  rw [membership, mem_normalize_voters]
  simp only [mem_map, mem_filter, decide_eq_true_eq, ListsAs]
  constructor
  · rintro ⟨peer, ⟨mem, role⟩, rfl⟩
    exact ⟨peer, mem, rfl, role⟩
  · rintro ⟨peer, mem, rfl, role⟩
    exact ⟨peer, ⟨mem, role⟩, rfl⟩

theorem mem_membership_learners : id ∈ (membership region).learners ↔
      (ListsAs region.peers id .learner ∨ ListsAs region.peers id .columnarLearner) ∧
        ¬ ListsAs region.peers id .voter := by
  rw [← mem_membership_voters, membership, mem_normalize_learners, mem_normalize_voters]
  refine and_congr_left fun _ => ?_
  simp only [mem_map, mem_filter, decide_eq_true_eq, ListsAs]
  constructor
  · rintro ⟨peer, ⟨mem, role | role⟩, rfl⟩
    · exact .inl ⟨peer, mem, rfl, role⟩
    · exact .inr ⟨peer, mem, rfl, role⟩
  rintro (⟨peer, mem, rfl, role⟩ | ⟨peer, mem, rfl, role⟩)
  · exact ⟨peer, ⟨mem, .inl role⟩, rfl⟩
  · exact ⟨peer, ⟨mem, .inr role⟩, rfl⟩

theorem membership_normalize (region : Region K) :
    (membership region).normalize = membership region := normalize_normalize _

def UniquePeers (peers : List Peer) : Prop := (peers.map Peer.peerId).Nodup

instance (peers : List Peer) : Decidable (UniquePeers peers) :=
  inferInstanceAs (Decidable (List.Nodup _))

theorem mem_sortPeers {peer : Peer} : peer ∈ sortPeers peers ↔ peer ∈ peers :=
  mem_insertionSort _

theorem UniquePeers.sortPeers (unique : UniquePeers peers) : UniquePeers (sortPeers peers) :=
  ((perm_insertionSort _ peers).map Peer.peerId).nodup_iff.mpr unique

theorem setRole_ids (node : Nat) (role : PeerRole) (peers : List Peer) :
    (setRole node role peers).map Peer.peerId = peers.map Peer.peerId := by
  induction peers with
  | nil => rfl
  | cons peer rest ih =>
    rw [setRole]
    split_ifs
    · rfl
    · rw [map_cons, map_cons, ih]

theorem setRole_lists {node : Nat} {role : PeerRole} (unique : UniquePeers peers)
    (listed : ∃ peer ∈ peers, peer.peerId = node) (id : Nat) (other : PeerRole) :
    ListsAs (setRole node role peers) id other ↔
      (id = node ∧ other = role) ∨ (id ≠ node ∧ ListsAs peers id other) := by
  induction peers with
  | nil =>
    obtain ⟨_, absurdMember, _⟩ := listed
    cases absurdMember
  | cons peer rest ih =>
    rw [UniquePeers, map_cons, nodup_cons] at unique
    have split : ∀ (current : Peer) (tail : List Peer), ListsAs (current :: tail) id other ↔
          (current.peerId = id ∧ current.role = other) ∨ ListsAs tail id other := by
      intro current tail
      simp only [ListsAs, mem_cons, exists_eq_or_imp]
    rw [setRole]
    by_cases isNode : peer.peerId = node
    · rw [if_pos isNode, split, split]
      -- The id is listed once, so nothing behind the head has it.
      have behind : ListsAs rest id other → id ≠ node := by
        rintro ⟨later, mem, rfl, _⟩ same
        apply unique.1
        rw [isNode, ← same]
        exact mem_map_of_mem mem
      rw [isNode]
      constructor
      · rintro (⟨rfl, rfl⟩ | later)
        · exact .inl ⟨rfl, rfl⟩
        · exact .inr ⟨behind later, .inr later⟩
      rintro (⟨rfl, rfl⟩ | ⟨differs, ⟨same, _⟩ | later⟩)
      · exact .inl ⟨rfl, rfl⟩
      · exact absurd same.symm differs
      · exact .inr later
    · have listedBehind : ∃ current ∈ rest, current.peerId = node := by
        obtain ⟨current, mem, same⟩ := listed
        rcases mem_cons.mp mem with rfl | mem
        · exact absurd same isNode
        · exact ⟨current, mem, same⟩
      rw [if_neg isNode, split, split, ih unique.2 listedBehind]
      constructor
      · rintro (⟨rfl, rfl⟩ | same | ⟨differs, later⟩)
        · exact .inr ⟨isNode, .inl ⟨rfl, rfl⟩⟩
        · exact .inl same
        · exact .inr ⟨differs, .inr later⟩
      · rintro (same | ⟨differs, head | later⟩)
        · exact .inr (.inl same)
        · exact .inl head
        · exact .inr (.inr ⟨differs, later⟩)

/-- Who is listed after an addition: the added peer in its role, and everyone else as
before. -/
theorem movedPeers_add_lists (unique : UniquePeers peers) (adds : change.kind ≠ .remove)
    (storeId id : Nat) (role : PeerRole) : ListsAs (movedPeers peers change storeId) id role ↔
      (id = change.node ∧ role = addedRole change) ∨
        (id ≠ change.node ∧ ListsAs peers id role) := by
  have unfolded : movedPeers peers change storeId =
      if peers.any (·.peerId = change.node) then
        setRole change.node (addedRole change) peers
      else peers ++ [⟨storeId, change.node, addedRole change⟩] := by
    rw [movedPeers]
    cases kind : change.kind with
    | remove => exact absurd kind adds
    | _ => rfl
  rw [unfolded]
  split_ifs with present
  · simp only [any_eq_true, decide_eq_true_eq] at present
    exact setRole_lists unique present id role
  simp only [any_eq_true, decide_eq_true_eq, not_exists, not_and] at present
  simp only [ListsAs, mem_append, mem_singleton]
  constructor
  · rintro ⟨peer, mem | rfl, rfl, rfl⟩
    · exact .inr ⟨present peer mem, peer, mem, rfl, rfl⟩
    · exact .inl ⟨rfl, rfl⟩
  rintro (⟨rfl, rfl⟩ | ⟨_, peer, mem, rfl, rfl⟩)
  · exact ⟨⟨storeId, change.node, addedRole change⟩, .inr rfl, rfl, rfl⟩
  · exact ⟨peer, .inl mem, rfl, rfl⟩

theorem movedPeers_remove_lists {peers : List Peer} {change : ConfChange}
    (removes : change.kind = .remove) (storeId id : Nat) (role : PeerRole) :
    ListsAs (movedPeers peers change storeId) id role ↔
      id ≠ change.node ∧ ListsAs peers id role := by
  rw [movedPeers, removes]
  simp only [ListsAs, mem_filter, decide_eq_true_eq]
  constructor
  · rintro ⟨peer, ⟨mem, differs⟩, rfl, rfl⟩
    exact ⟨differs, peer, mem, rfl, rfl⟩
  · rintro ⟨differs, peer, mem, rfl, rfl⟩
    exact ⟨peer, ⟨mem, differs⟩, rfl, rfl⟩

theorem UniquePeers.movedPeers (unique : UniquePeers peers) (change : ConfChange) (storeId : Nat) :
    UniquePeers (movedPeers peers change storeId) := by
  have added : UniquePeers (if peers.any (·.peerId = change.node) then
      setRole change.node (addedRole change) peers
      else peers ++ [⟨storeId, change.node, addedRole change⟩]) := by
    split_ifs with present
    · rw [UniquePeers, setRole_ids]
      exact unique
    simp only [any_eq_true, decide_eq_true_eq, not_exists, not_and] at present
    rw [UniquePeers, map_append, nodup_append]
    refine ⟨unique, nodup_singleton _, ?_⟩
    intro id mem other isNode
    obtain ⟨peer, listed, rfl⟩ := mem_map.mp mem
    rw [map_singleton, mem_singleton] at isNode
    rw [isNode]
    exact present peer listed
  rw [Store.movedPeers]
  cases change.kind with
  | remove => exact unique.sublist (List.Sublist.map _ filter_sublist)
  | _ => exact added

/-! ## One change -/

/-- What `propose_conf_change` puts in the log: a context that decodes, with a learner's
role for a learner. -/
def WellFormedChange (change : ConfChange) : Prop :=
  ∃ storeId role, @decodeConfChangeContext Unit change.context = .ok (storeId, role) ∧
    (change.kind = .addLearner → role ≠ .voter)

/-- Decoding a context does not depend on the type of keys its errors mention. -/
theorem decodeConfChangeContext_ok {K L : Type} {context : Bytes} {result : Nat × PeerRole}
    (decoded : @decodeConfChangeContext K context = .ok result) :
    @decodeConfChangeContext L context = .ok result := by
  rw [decodeConfChangeContext.eq_def] at decoded ⊢
  cases context with
  | nil => cases decoded
  | cons version rest =>
    dsimp only at decoded ⊢
    split_ifs at decoded ⊢
    cases parsed : getU64 rest with
    | none =>
      rw [parsed] at decoded
      cases decoded
    | some value =>
      obtain ⟨storeId, remaining⟩ := value
      rw [parsed] at decoded
      cases remaining with
      | nil => exact congrArg Except.ok (Except.ok.inj decoded)
      | cons byte behind =>
        dsimp only at decoded ⊢
        cases known : PeerRole.fromU8 byte with
        | none =>
          rw [known] at decoded
          cases decoded
        | some role =>
          rw [known] at decoded
          exact congrArg Except.ok (Except.ok.inj decoded)

theorem WellFormedChange.addedRole_learner (wellFormed : WellFormedChange change)
    (adds : change.kind = .addLearner) : addedRole change ≠ .voter := by
  obtain ⟨storeId, role, decoded, isLearner⟩ := wellFormed
  rw [addedRole, adds, if_neg (by decide), decoded]
  exact isLearner adds

theorem membership_moved (unique : UniquePeers region.peers) (wellFormed : WellFormedChange change)
    (storeId : Nat) (epoch : Epoch) : membership { region with
        peers := sortPeers (movedPeers region.peers change storeId), epoch } =
      change.applyTo (membership region) := by
  have lists : ∀ id role, ListsAs (sortPeers (movedPeers region.peers change storeId)) id role ↔
      ListsAs (movedPeers region.peers change storeId) id role := by
    intro id role
    simp only [ListsAs, mem_sortPeers]
  rw [← membership_normalize, ConfChange.applyTo]
  cases kind : change.kind with
  | addVoter =>
    have adds : change.kind ≠ .remove := by rw [kind]; decide
    have role : addedRole change = .voter := by rw [addedRole, if_pos kind]
    have moved := movedPeers_add_lists unique adds storeId
    refine normalize_congr ?_ ?_
    · intro id
      rw [mem_membership_voters]
      simp only [lists, moved, role, and_true, mem_append, mem_filter,
        mem_membership_voters, decide_eq_true_eq, mem_singleton]
      tauto
    · intro id
      rw [mem_membership_voters, mem_membership_learners]
      simp only [lists, moved, role, mem_filter, mem_membership_learners,
        decide_eq_true_eq, reduceCtorEq, and_false, false_or, and_true]
      tauto
  | addLearner =>
    have adds : change.kind ≠ .remove := by rw [kind]; decide
    have role := wellFormed.addedRole_learner kind
    have moved := movedPeers_add_lists unique adds storeId
    have learnerRole : addedRole change = .learner ∨ addedRole change = .columnarLearner := by
      cases isRole : addedRole change with
      | voter => exact absurd isRole role
      | learner => exact .inl rfl
      | columnarLearner => exact .inr rfl
    refine normalize_congr ?_ ?_
    · intro id
      rw [mem_membership_voters]
      simp only [lists, moved, role.symm, and_false, false_or, mem_filter,
        mem_membership_voters, decide_eq_true_eq]
      tauto
    · intro id
      rw [mem_membership_voters, mem_membership_learners]
      simp only [lists, moved, role.symm, and_false, false_or, mem_append, mem_filter,
        mem_membership_learners, decide_eq_true_eq, mem_singleton]
      rcases learnerRole with isRole | isRole <;>
      · rw [isRole]
        simp only [and_true, reduceCtorEq, and_false, false_or]
        tauto
  | remove =>
    have moved := @movedPeers_remove_lists region.peers change kind storeId
    refine normalize_congr ?_ ?_
    · intro id
      rw [mem_membership_voters]
      simp only [lists, moved, mem_filter, mem_membership_voters, decide_eq_true_eq]
      tauto
    · intro id
      rw [mem_membership_voters, mem_membership_learners]
      simp only [lists, moved, mem_filter, mem_membership_learners, decide_eq_true_eq]
      tauto

end Esker.Store
