import Rcc.Tree.Broadcast

/-!
# Rcc.Tree.Observer

A message that a node outside the consensus list starts: it is sent to the consensus node `c`, or
to nodes below that one if it is not there.

The nodes below are looked for from index `c` of the tree whose root `c` is. There the root is at
index 0, so unless `c` is 0 they are those below another node.

* `reachedOnce_iff_entries` — the message reaches everyone once if it is sent to the live nodes that
  have no live node above;
* `observer_reaches_once_iff` — when the indices it is sent to are those.
-/

namespace Rcc.Tree

open List TreeTopology

open LevelOrder

variable {NodeID : Type} [DecidableEq NodeID] (treeWidth : Nat) (nodes : List NodeID)
  (live : Finset NodeID) (c : Nat) (observer : NodeID)

/-- What the observer (`none`) sends, and what a consensus node sends on. -/
def sentBy : Option NodeID → List NodeID
  | none => (topologyOf treeWidth nodes observer).selectNodes live c true
  | some u => forwards treeWidth nodes live c u

/-- A node has received the message from a sender. -/
inductive Received (treeWidth : Nat) (nodes : List NodeID) (live : Finset NodeID) (c : Nat)
    (observer : NodeID) : Option NodeID → NodeID → Prop where
  | start {v : NodeID} (hv : v ∈ sentBy treeWidth nodes live c observer none) :
      Received treeWidth nodes live c observer none v
  | forward {sender : Option NodeID} {u v : NodeID}
      (h : Received treeWidth nodes live c observer sender u)
      (hv : v ∈ sentBy treeWidth nodes live c observer (some u)) :
      Received treeWidth nodes live c observer (some u) v

/-- Every live consensus node receives the message from one sender, who sends it once. -/
def ReachedOnce : Prop :=
  ∀ v ∈ nodes, v ∈ live → ∃ sender, Received treeWidth nodes live c observer sender v ∧
    (sentBy treeWidth nodes live c observer sender).count v = 1 ∧
    ∀ sender', Received treeWidth nodes live c observer sender' v → sender' = sender

/-- The consensus node the observer aims at is there. -/
def EntryLive : Prop :=
  ∃ v, nodes[c]? = some v ∧ v ∈ live

section Entry

variable {treeWidth : Nat} {nodes : List NodeID} {live : Finset NodeID} {c : Nat}
  {observer u v : NodeID} {sender : Option NodeID}

theorem consIndex_observer (hne : nodes ≠ []) (hobserver : observer ∉ nodes) :
    (topologyOf treeWidth nodes observer).consIndex < 0 := by
  simp [topologyOf_eq hne, getNodeIndexByNodeId, hobserver]

theorem getNodeIDByIndex_natCast (hne : nodes ≠ []) (c : Nat) :
    (topologyOf treeWidth nodes observer).getNodeIDByIndex c = nodes[c]? := by
  simp only [topologyOf_eq hne, getNodeIDByIndex]
  split
  · exact (List.getElem?_eq_none (by omega)).symm
  · rfl

theorem sentBy_entry (hobserver : observer ∉ nodes) (hc : nodes[c]? = some v) (hv : v ∈ live) :
    sentBy treeWidth nodes live c observer none = [v] := by
  have hne : nodes ≠ [] := ne_nil_of_mem (mem_of_getElem? hc)
  rw [sentBy, selectNodes, if_pos (consIndex_observer hne hobserver)]
  simp only [getNodeIDByIndex_natCast hne, hc, if_pos hv, Bool.not_true, Bool.false_eq_true,
    if_false]

theorem sentBy_children (hne : nodes ≠ []) (hobserver : observer ∉ nodes)
    (hentry : ¬ EntryLive nodes live c) :
    sentBy treeWidth nodes live c observer none =
      (topologyOf treeWidth nodes observer).selectChildNodes c live c := by
  rw [sentBy, selectNodes, if_pos (consIndex_observer hne hobserver),
    getNodeIDByIndex_natCast hne, Bool.not_true, if_neg Bool.false_ne_true]
  split
  · rename_i v hv
    exact if_neg fun hlive => hentry ⟨v, hv, hlive⟩
  · rfl

theorem sentBy_below (hne : nodes ≠ []) (hobserver : observer ∉ nodes)
    (hentry : ¬ EntryLive nodes live c) :
    sentBy treeWidth nodes live c observer none =
      selected treeWidth nodes live c c := by
  rw [sentBy_children hne hobserver hentry]
  exact selectChildNodes_eq hne (fun _ _ _ => rfl) observer

/-! ## Who sends to whom -/

theorem Received.mem_sentBy (h : Received treeWidth nodes live c observer sender v) :
    v ∈ sentBy treeWidth nodes live c observer sender := by
  cases h with
  | start hv => exact hv
  | forward _ hv => exact hv

variable (hwidth : 0 < treeWidth) (hnodup : nodes.Nodup) (hobserver : observer ∉ nodes)

include hwidth hnodup hobserver

theorem mem_sentBy_none {k : Nat} (hk : k < nodes.length) (hv : nodeAt nodes c k = some v)
    (hlive : v ∈ live) :
    v ∈ sentBy treeWidth nodes live c observer none ↔ (EntryLive nodes live c ∧ k = 0) ∨
        ¬ EntryLive nodes live c ∧ Below treeWidth (liveAt nodes live c) c k := by
  have hne : nodes ≠ [] := ne_nil_of_mem (mem_of_nodeAt hv)
  by_cases hentry : EntryLive nodes live c
  · obtain ⟨w, hc, hw⟩ := hentry
    rw [sentBy_entry hobserver hc hw, mem_singleton]
    have hzero := nodeAt_zero hc
    constructor
    · rintro rfl
      exact .inl ⟨⟨v, hc, hw⟩, nodeAt_inj hnodup hk (by omega) hv hzero⟩
    · rintro (⟨-, rfl⟩ | ⟨hdead, -⟩)
      · exact Option.some.inj (hv.symm.trans hzero)
      · exact absurd ⟨w, hc, hw⟩ hdead
  · rw [sentBy_below hne hobserver hentry, mem_selected hwidth hnodup hk hv]
    simp [hentry, hlive]

theorem nodup_sentBy (hne : nodes ≠ []) (sender : Option NodeID) :
    (sentBy treeWidth nodes live c observer sender).Nodup := by
  cases sender with
  | some u => exact nodup_forwards hwidth hnodup hne live u
  | none =>
    by_cases hentry : EntryLive nodes live c
    · obtain ⟨v, hc, hv⟩ := hentry
      rw [sentBy_entry hobserver hc hv]
      exact nodup_singleton v
    · rw [sentBy_below hne hobserver hentry]
      exact nodup_selected hwidth hnodup hne live c

theorem Received.mem_live (hne : nodes ≠ [])
    (h : Received treeWidth nodes live c observer sender v) : v ∈ nodes ∧ v ∈ live := by
  cases h with
  | forward _ hv =>
    obtain ⟨_, _, _, _, _, hv, hlive, _⟩ := mem_forwards_imp hwidth hnodup hne hv
    exact ⟨mem_of_nodeAt hv, hlive⟩
  | start hv =>
    by_cases hentry : EntryLive nodes live c
    · obtain ⟨w, hc, hw⟩ := hentry
      rw [sentBy_entry hobserver hc hw, mem_singleton] at hv
      exact hv ▸ ⟨mem_of_getElem? hc, hw⟩
    · rw [sentBy_below hne hobserver hentry, selected, mem_filterMap] at hv
      obtain ⟨k, hk, hv⟩ := hv
      exact ⟨mem_of_nodeAt hv, (liveAt_of_nodeAt hv).mp ((mem_firstLive_zero hwidth).mp hk).2.1⟩

/-- A node that forwards is the live node above. -/
theorem Received.above {u : NodeID} {k : Nat} (hk : k < nodes.length)
    (hv : nodeAt nodes c k = some v) (h : Received treeWidth nodes live c observer (some u) v) :
    ∃ p, nodeAt nodes c p = some u ∧ liveAt nodes live c p = true ∧
      Below treeWidth (liveAt nodes live c) p k := by
  have hne : nodes ≠ [] := ne_nil_of_mem (mem_of_nodeAt hv)
  cases h with
  | forward h hmem =>
    obtain ⟨p, k', -, hk', hu, hv', -, hbelow⟩ := mem_forwards_imp hwidth hnodup hne hmem
    obtain rfl := nodeAt_inj hnodup hk hk' hv hv'
    have hlive := (h.mem_live hwidth hnodup hobserver hne).2
    exact ⟨p, hu, (liveAt_of_nodeAt hu).mpr hlive, hbelow⟩

/-- **The message reaches everyone once if it enters where there is no live node above.** -/
theorem reachedOnce_iff_entries :
    ReachedOnce treeWidth nodes live c observer ↔
      ∀ k < nodes.length, ∀ v, nodeAt nodes c k = some v → v ∈ live →
        (v ∈ sentBy treeWidth nodes live c observer none ↔
          ¬ Covered treeWidth (liveAt nodes live c) k) := by
  constructor
  · intro hreached k hk v hv hlive
    have hne : nodes ≠ [] := ne_nil_of_mem (mem_of_nodeAt hv)
    obtain ⟨sender, hrcv, -, hunique⟩ := hreached v (mem_of_nodeAt hv) hlive
    constructor
    · rintro hentry ⟨p, hp, hbelow⟩
      -- the node above has received it too, and sends it on
      have hlt := hbelow.lt
      obtain ⟨u, hu⟩ := exists_at hne c p
      obtain ⟨_, hu', -⟩ := hreached u (mem_of_nodeAt hu) ((liveAt_of_nodeAt hu).mp hp)
      have hforward : Received treeWidth nodes live c observer (some u) v := hu'.forward
        ((mem_forwards hwidth hnodup (by omega) hk hu hv).mpr ⟨hlive, hbelow⟩)
      have hboth := (hunique _ hforward).trans (hunique _ (.start hentry)).symm
      cases hboth
    · intro hnone
      cases sender with
      | none => exact hrcv.mem_sentBy
      | some u =>
        obtain ⟨p, -, hp, hbelow⟩ := hrcv.above hwidth hnodup hobserver hk hv
        exact absurd ⟨p, hp, hbelow⟩ hnone
  · intro hentries v hmem hlive
    have hne : nodes ≠ [] := ne_nil_of_mem hmem
    obtain ⟨k, hk, hv⟩ := exists_nodeAt (r := c) hmem
    -- who sends to it is the observer, or the live node above
    have hsender : ∀ {s s'}, Received treeWidth nodes live c observer s v →
        Received treeWidth nodes live c observer s' v → s' = s := by
      intro s s' h h'
      cases s with
      | none =>
        cases s' with
        | none => rfl
        | some u =>
          obtain ⟨e, -, he, hbelow⟩ := h'.above hwidth hnodup hobserver hk hv
          exact absurd ⟨e, he, hbelow⟩ ((hentries k hk v hv hlive).mp h.mem_sentBy)
      | some u =>
        obtain ⟨e, hu, he, hbelow⟩ := h.above hwidth hnodup hobserver hk hv
        cases s' with
        | none => exact absurd ⟨e, he, hbelow⟩ ((hentries k hk v hv hlive).mp h'.mem_sentBy)
        | some u' =>
          obtain ⟨e', hu', he', hbelow'⟩ := h'.above hwidth hnodup hobserver hk hv
          obtain rfl := hbelow.unique hbelow' he he'
          exact hu'.symm.trans hu
    suffices hrcv : ∃ s, Received treeWidth nodes live c observer s v by
      obtain ⟨s, hs⟩ := hrcv
      refine ⟨s, hs, ?_, fun s' hs' => hsender hs hs'⟩
      exact count_eq_one_of_mem (nodup_sentBy hwidth hnodup hobserver hne s) hs.mem_sentBy
    clear hsender hmem
    induction k using Nat.strong_induction_on generalizing v with
    | h k ih =>
      by_cases hbelow : Covered treeWidth (liveAt nodes live c) k
      · obtain ⟨p, hp, hbelow⟩ := hbelow
        have hlt := hbelow.lt
        obtain ⟨u, hu⟩ := exists_at hne c p
        obtain ⟨s, hs⟩ := ih p hlt u ((liveAt_of_nodeAt hu).mp hp) (by omega) hu
        exact ⟨some u, hs.forward
          ((mem_forwards hwidth hnodup (by omega) hk hu hv).mpr ⟨hlive, hbelow⟩)⟩
      · exact ⟨none, .start ((hentries k hk v hv hlive).mpr hbelow)⟩

/-- The observer enters there if the node it aims at is live, or all live nodes are below the index
it starts from. -/
theorem entries_iff :
    (∀ k < nodes.length, ∀ v, nodeAt nodes c k = some v → v ∈ live →
      (v ∈ sentBy treeWidth nodes live c observer none ↔
        ¬ Covered treeWidth (liveAt nodes live c) k)) ↔
      EntryLive nodes live c ∨
        ∀ k < nodes.length, liveAt nodes live c k = true → Under treeWidth c k := by
  by_cases hentry : EntryLive nodes live c
  · refine iff_of_true (fun k hk v hv hlive => ?_) (.inl hentry)
    rw [mem_sentBy_none hwidth hnodup hobserver hk hv hlive]
    obtain ⟨w, hc, hw⟩ := hentry
    have hzero : liveAt nodes live c 0 = true := (liveAt_of_nodeAt (nodeAt_zero hc)).mpr hw
    constructor
    · rintro (⟨-, rfl⟩ | ⟨hdead, -⟩) ⟨p, -, hbelow⟩
      · exact absurd hbelow.lt (Nat.not_lt_zero p)
      · exact hdead ⟨w, hc, hw⟩
    · intro hnone
      refine .inl ⟨⟨w, hc, hw⟩, Nat.eq_zero_of_not_pos fun hpos => hnone ?_⟩
      exact exists_below hzero hpos
  · have hne : ∀ {k}, k < nodes.length → nodes ≠ [] := fun hk =>
      length_pos_iff.mp (Nat.zero_lt_of_lt hk)
    simp only [hentry, false_or]
    constructor
    · intro hentries k hk
      induction k using Nat.strong_induction_on with
      | h k ih =>
        intro hlive
        obtain ⟨v, hv⟩ := exists_at (hne hk) c k
        have hiff := hentries k hk v hv ((liveAt_of_nodeAt hv).mp hlive)
        rw [mem_sentBy_none hwidth hnodup hobserver hk hv ((liveAt_of_nodeAt hv).mp hlive)] at hiff
        simp only [hentry, false_and, not_false_eq_true, true_and, false_or] at hiff
        by_cases habove : Covered treeWidth (liveAt nodes live c) k
        · obtain ⟨p, hp, hbelow⟩ := habove
          have hlt := hbelow.lt
          exact (ih p hlt (by omega) hp).trans (hbelow.under hwidth)
        · exact (hiff.mpr habove).under hwidth
    · intro hunder k hk v hv hlive
      rw [mem_sentBy_none hwidth hnodup hobserver hk hv hlive]
      simp only [hentry, false_and, not_false_eq_true, true_and, false_or]
      constructor
      · rintro hbelow ⟨p, hp, hbelow'⟩
        have hlt := hbelow'.lt
        have hdead := hbelow.dead (hunder p (by omega) hp) (hbelow'.under hwidth)
        exact Bool.false_ne_true (hdead.symm.trans hp)
      · intro hnone
        exact ((hunder k hk ((liveAt_of_nodeAt hv).mpr hlive)).below_or).resolve_right hnone

end Entry

/-! ## Trees of width 0 -/

section NoWidth

variable {nodes : List NodeID} {live : Finset NodeID} {c : Nat} {observer v : NodeID}

theorem selectChildNodes_zero (u : NodeID) (parentIndex : Nat) (peers : Finset NodeID)
    (startIndex : Int) :
    (topologyOf 0 nodes u).selectChildNodes parentIndex peers startIndex = [] := by
  have hwidth : (topologyOf 0 nodes u).treeWidth = 0 := by
    rw [topologyOf, updateConsensusNodeInfo]
    split <;> rfl
  rw [selectChildNodes, hwidth, recursiveSelectChildNodes, if_neg (Nat.not_lt_zero 0)]

theorem forwards_zero (u : NodeID) : forwards 0 nodes live c u = [] := by
  rw [forwards, selectNodes]
  split
  · rfl
  · exact selectChildNodes_zero ..

/-- Only the node the observer aims at receives the message. -/
theorem reachedOnce_zero_iff (hobserver : observer ∉ nodes) :
    ReachedOnce 0 nodes live c observer ↔
      ∀ v ∈ nodes, v ∈ live → nodes[c]? = some v := by
  have hsent : ∀ v ∈ nodes, (v ∈ sentBy 0 nodes live c observer none ↔
      v ∈ live ∧ nodes[c]? = some v) := by
    intro v hv
    by_cases hentry : EntryLive nodes live c
    · obtain ⟨w, hc, hw⟩ := hentry
      rw [sentBy_entry hobserver hc hw, mem_singleton, hc]
      exact ⟨fun h => ⟨h ▸ hw, h ▸ rfl⟩, fun h => (Option.some.inj h.2).symm⟩
    · rw [sentBy_children (ne_nil_of_mem hv) hobserver hentry, selectChildNodes_zero]
      exact iff_of_false not_mem_nil fun h => hentry ⟨v, h.2, h.1⟩
  have hsender : ∀ {s v}, Received 0 nodes live c observer s v → s = none := by
    intro s v h
    cases h with
    | start _ => rfl
    | @forward _ u _ _ hv =>
      rw [sentBy, forwards_zero] at hv
      cases hv
  constructor
  · intro hreached v hv hlive
    obtain ⟨s, hs, -⟩ := hreached v hv hlive
    obtain rfl := hsender hs
    exact ((hsent v hv).mp hs.mem_sentBy).2
  · intro hall v hv hlive
    have hmem := (hsent v hv).mpr ⟨hlive, hall v hv hlive⟩
    refine ⟨none, .start hmem, ?_, fun s' hs' => hsender hs'⟩
    rw [sentBy_entry hobserver (hall v hv hlive) hlive, count_singleton_self]

end NoWidth

/-- The observer's message enters the tree above every live node: at the root, which is the node it
aims at, or below the index it starts from when that node is not there. -/
def EntersAbove : Prop :=
  ∀ k < nodes.length, liveAt nodes live c k = true →
    EntryLive nodes live c ∧ (k = 0 ∨ Under treeWidth 0 k) ∨ Under treeWidth c k

/-- **A message from outside reaches every live consensus node once if it enters above them all.**
If the node that is aimed at is live this is so, and for `c = 0`; otherwise only if all live nodes
are below index `c` of the tree. -/
theorem observer_reaches_once_iff (hnodup : nodes.Nodup) (hobserver : observer ∉ nodes) :
    ReachedOnce treeWidth nodes live c observer ↔ EntersAbove treeWidth nodes live c := by
  rcases Nat.eq_zero_or_pos treeWidth with rfl | hwidth
  · rw [reachedOnce_zero_iff hobserver]
    constructor
    · intro hall k hk hlive
      have hne : nodes ≠ [] := length_pos_iff.mp (Nat.zero_lt_of_lt hk)
      obtain ⟨v, hv⟩ := exists_at hne c k
      have hvlive : v ∈ live := (liveAt_of_nodeAt hv).mp hlive
      have hc := hall v (mem_of_nodeAt hv) hvlive
      refine .inl ⟨⟨v, hc, hvlive⟩, .inl ?_⟩
      exact nodeAt_inj hnodup hk (Nat.zero_lt_of_lt hk) hv (nodeAt_zero hc)
    · intro hall v hmem hlive
      obtain ⟨k, hk, hv⟩ := exists_nodeAt (r := c) hmem
      rcases hall k hk ((liveAt_of_nodeAt hv).mpr hlive) with ⟨⟨w, hc, -⟩, hzero⟩ | hunder
      · obtain rfl : k = 0 := hzero.resolve_right fun hunder => Nat.lt_irrefl 0 hunder.1
        rw [hc, ← nodeAt_zero hc, hv]
      · exact absurd hunder.1 (Nat.lt_irrefl 0)
  · rw [reachedOnce_iff_entries hwidth hnodup hobserver, entries_iff hwidth hnodup hobserver]
    by_cases hentry : EntryLive nodes live c
    · refine iff_of_true (.inl hentry) fun k _ _ => .inl ⟨hentry, ?_⟩
      exact (Nat.eq_zero_or_pos k).imp_right (under_zero hwidth)
    · simp [EntersAbove, hentry]

/-- Node 0 of four is down, and an observer aims at it. -/
theorem four_nodes_entered : ReachedOnce 2 [0, 1, 2, 3] {1, 2, 3} 0 9 := by
  refine (observer_reaches_once_iff 2 [0, 1, 2, 3] {1, 2, 3} 0 9 (by decide) (by decide)).mpr ?_
  intro k _ hlive
  refine .inr (under_zero (by decide) (Nat.pos_of_ne_zero ?_))
  rintro rfl
  revert hlive
  decide

/-- Node 1 of four is down. The message starts from index 1 of the tree with root 1, the place of
node 2, and is sent to node 0 only. -/
theorem four_nodes_missed : ¬ ReachedOnce 2 [0, 1, 2, 3] {0, 2, 3} 1 9 := by
  rw [reachedOnce_iff_entries (by decide) (by decide) (by decide),
    entries_iff (by decide) (by decide) (by decide)]
  rintro (⟨v, hc, hv⟩ | hunder)
  · obtain rfl : 1 = v := Option.some.inj hc
    revert hv
    decide
  · exact Nat.lt_irrefl 1 (hunder 1 (by decide) (by decide)).lt

end Rcc.Tree
