import Mathlib.Data.List.Dedup
import Rcc.Lib.UnorderedMap

/-!
# Rcc.Lib.IterationOrder

The iteration order of an `UnorderedMap` that is only ever assigned to, as a function of the
order in which its keys arrived. As long as the table never outgrows its first 13 buckets,
two rules decide every pair of keys:

* keys of *different* buckets come out in the reverse of the order in which their buckets
  were first used;
* keys of *one* bucket come out in the reverse of the order in which they themselves arrived.

`keys_ofArrivals_eq_iff` turns this into an exact test of when two arrival histories of the
same keys are iterated alike.
-/

namespace UnorderedMap

open List

variable {κ α : Type} [StdHash κ] {o : List κ} {i j k : κ}

/-- The bucket count of every non-empty table that has not been rehashed since. -/
def firstBucketCount : Nat := 13

/-- When the bucket of `k` was first used by the arrivals `o`. -/
def bucketArrival (o : List κ) (k : κ) : Nat :=
  (o.map (bucket firstBucketCount)).idxOf (bucket firstBucketCount k)

theorem bucketArrival_eq_iff (hi : i ∈ o) :
    bucketArrival o i = bucketArrival o j ↔
      bucket firstBucketCount i = bucket firstBucketCount j := idxOf_inj (mem_map_of_mem hi)

theorem bucketArrival_append (hi : i ∈ o) (k : κ) :
    bucketArrival (o ++ [k]) i = bucketArrival o i := by
  unfold bucketArrival
  rw [map_append, idxOf_append_of_mem (mem_map_of_mem hi)]

variable [DecidableEq κ] (history : List (κ × α))

/-- The container after the assignments `m[k] = v` of a history, first assignment first. -/
def ofArrivals : UnorderedMap κ α :=
  history.foldl (fun m p => m.set p.1 p.2) ∅

/-- `i` is iterated before `j` once the keys `o` have arrived in this order. -/
def IteratedBefore (o : List κ) (i j : κ) : Prop :=
  bucketArrival o j < bucketArrival o i ∨
    bucketArrival o i = bucketArrival o j ∧ o.idxOf j < o.idxOf i

instance (o : List κ) (i j : κ) : Decidable (IteratedBefore o i j) :=
  inferInstanceAs (Decidable (_ ∨ _))

/-- Two arrival orders that every pair of keys is iterated alike under. -/
def SameIterationOrder (o₁ o₂ : List κ) : Prop :=
  ∀ i ∈ o₁, ∀ j ∈ o₁, IteratedBefore o₁ i j ↔ IteratedBefore o₂ i j

instance (o₁ o₂ : List κ) : Decidable (SameIterationOrder o₁ o₂) :=
  inferInstanceAs (Decidable (∀ i ∈ o₁, ∀ j ∈ o₁, _))

/-! ### The order is strict and total on the arrived keys -/

theorem IteratedBefore.asymm (h : IteratedBefore o i j) : ¬ IteratedBefore o j i := by
  unfold IteratedBefore at *
  omega

/-! ### A later arrival leaves the earlier ones in place -/

theorem iteratedBefore_append (hi : i ∈ o) (hj : j ∈ o) (k : κ) :
    IteratedBefore (o ++ [k]) i j ↔ IteratedBefore o i j := by
  unfold IteratedBefore
  rw [bucketArrival_append hi, bucketArrival_append hj, idxOf_append_of_mem hi,
    idxOf_append_of_mem hj]

theorem iteratedBefore_new_of_bucket_eq (hk : k ∉ o) (hj : j ∈ o)
    (hb : bucket firstBucketCount k = bucket firstBucketCount j) :
    IteratedBefore (o ++ [k]) k j := by
  refine .inr ⟨?_, ?_⟩
  · unfold bucketArrival
    rw [hb]
  · rw [idxOf_append_of_mem hj, idxOf_append_of_notMem hk]
    have := idxOf_lt_length_of_mem hj
    omega

theorem iteratedBefore_new_of_bucket_unused (hj : j ∈ o)
    (hb : bucket firstBucketCount k ∉ o.map (bucket firstBucketCount)) :
    IteratedBefore (o ++ [k]) k j := by
  refine .inl ?_
  rw [bucketArrival_append hj]
  unfold bucketArrival
  rw [map_append, idxOf_append_of_notMem hb]
  have := idxOf_lt_length_of_mem (mem_map_of_mem hj (f := bucket firstBucketCount))
  omega

/-! ### One insertion keeps the nodes sorted -/

variable {l : List (κ × α)}

/-- The nodes stand in the order the arrivals `o` call for. -/
def SortedBy (o : List κ) (l : List (κ × α)) : Prop :=
  l.Pairwise (fun p q => IteratedBefore o p.1 q.1)

theorem SortedBy.append (h : SortedBy o l) (hl : ∀ p ∈ l, p.1 ∈ o) (k : κ) :
    SortedBy (o ++ [k]) l := by
  refine List.Pairwise.imp_of_mem ?_ h
  intro p q hp hq hpq
  exact (iteratedBefore_append (hl p hp) (hl q hq) k).mpr hpq

/-- A node put in front of its bucket's first node: the nodes before it belong to buckets
that were used later, the nodes behind it to its own bucket or to one used earlier. -/
theorem sortedBy_insertInBucket {e : κ × α} (hl : ∀ p ∈ l, p.1 ∈ o) (he : e.1 ∉ o)
    (hs : SortedBy (o ++ [e.1]) l)
    (hb : ∃ p ∈ l, bucket firstBucketCount p.1 = bucket firstBucketCount e.1) :
    SortedBy (o ++ [e.1]) (insertInBucket firstBucketCount e l) := by
  induction l with
  | nil => simp at hb
  | cons p l ih =>
    obtain ⟨hp, hs'⟩ := pairwise_cons.mp hs
    have hpo : p.1 ∈ o := hl p mem_cons_self
    have hlo : ∀ q ∈ l, q.1 ∈ o := fun q hq => hl q (mem_cons_of_mem p hq)
    have hmem : ∀ {k}, k ∈ o → k ∈ o ++ [e.1] := fun hk => mem_append_left _ hk
    unfold insertInBucket
    split_ifs with hpe
    · refine pairwise_cons.mpr ⟨?_, hs⟩
      intro q hq
      by_cases hqe : bucket firstBucketCount q.1 = bucket firstBucketCount e.1
      · exact iteratedBefore_new_of_bucket_eq he (hl q hq) hqe.symm
      · rcases mem_cons.mp hq with rfl | hq
        · exact absurd hpe hqe
        · refine .inl ?_
          have hpe' : bucketArrival (o ++ [e.1]) p.1 = bucketArrival (o ++ [e.1]) e.1 :=
            (bucketArrival_eq_iff (hmem hpo)).mpr hpe
          rcases hp q hq with hlt | ⟨heq, -⟩
          · rwa [hpe'] at hlt
          · exact absurd (((bucketArrival_eq_iff (hmem hpo)).mp heq).symm.trans hpe) hqe
    · obtain ⟨s, hs_mem, hse⟩ := hb
      have hsl : s ∈ l := by
        rcases mem_cons.mp hs_mem with rfl | h
        · exact absurd hse hpe
        · exact h
      -- a later node of `e`'s bucket places the whole bucket behind `p`
      have hpe_before : IteratedBefore (o ++ [e.1]) p.1 e.1 := by
        have hse' : bucketArrival (o ++ [e.1]) s.1 = bucketArrival (o ++ [e.1]) e.1 :=
          (bucketArrival_eq_iff (hmem (hlo s hsl))).mpr hse
        rcases hp s hsl with hlt | ⟨heq, -⟩
        · exact .inl (hse' ▸ hlt)
        · exact absurd (((bucketArrival_eq_iff (hmem hpo)).mp heq).trans hse) hpe
      refine pairwise_cons.mpr ⟨?_, ih hlo hs' ⟨s, hsl, hse⟩⟩
      intro q hq
      rcases mem_cons.mp ((insertInBucket_perm _ _ _).mem_iff.mp hq) with rfl | hq
      · exact hpe_before
      · exact hp q hq

theorem sortedBy_insertBucketBegin {e : κ × α} (hl : ∀ k, k ∈ o ↔ ∃ p ∈ l, p.1 = k) (he : e.1 ∉ o)
    (hs : SortedBy o l) : SortedBy (o ++ [e.1]) (insertBucketBegin firstBucketCount e l) := by
  have hlo : ∀ p ∈ l, p.1 ∈ o := fun p hp => (hl p.1).mpr ⟨p, hp, rfl⟩
  have hs' : SortedBy (o ++ [e.1]) l := hs.append hlo e.1
  unfold insertBucketBegin
  split_ifs with hany
  · obtain ⟨p, hp, hpe⟩ := any_eq_true.mp hany
    exact sortedBy_insertInBucket hlo he hs' ⟨p, hp, by simpa using hpe⟩
  · refine pairwise_cons.mpr ⟨?_, hs'⟩
    intro q hq
    refine iteratedBefore_new_of_bucket_unused (hlo q hq) ?_
    intro hmem
    obtain ⟨k, hk, hke⟩ := mem_map.mp hmem
    obtain ⟨p, hp, rfl⟩ := (hl k).mp hk
    exact hany (any_eq_true.mpr ⟨p, hp, by simpa using hke⟩)

/-! ### Whole histories -/

@[simp] theorem ofArrivals_append (p : κ × α) :
    ofArrivals (history ++ [p]) = (ofArrivals history).set p.1 p.2 := by
  unfold ofArrivals
  rw [foldl_append]
  rfl

theorem mem_keys_set {m : UnorderedMap κ α} {k' : κ} {v : α} :
    k' ∈ (m.set k v).keys ↔ k' = k ∨ k' ∈ m.keys := by
  by_cases h : k ∈ m.keys
  · rw [keys_set_of_mem h]
    refine ⟨.inr, ?_⟩
    rintro (rfl | h')
    · exact h
    · exact h'
  · rw [keys, ((set_nodes_of_not_mem h v).map Prod.fst).mem_iff, map_cons, mem_cons, keys]

theorem mem_keys_ofArrivals (k : κ) :
    k ∈ (ofArrivals history).keys ↔ k ∈ history.map Prod.fst := by
  induction history using List.reverseRecOn with
  | nil => simp [ofArrivals]
  | append_singleton l p ih =>
    rw [ofArrivals_append, mem_keys_set, ih]
    simp [or_comm]

/-- Every node holds an assignment of the history. -/
theorem mem_of_mem_ofArrivals {history : List (κ × α)} {p : κ × α}
    (hp : p ∈ (ofArrivals history).nodes) : p ∈ history := by
  induction history using List.reverseRecOn with
  | nil => exact hp
  | append_singleton l q ih =>
    rw [ofArrivals_append] at hp
    rcases mem_set_nodes.mp hp with rfl | ⟨-, hp⟩
    · exact mem_append_right l (mem_singleton_self q)
    · exact mem_append_left _ (ih hp)

/-- The container has one node per distinct key of the history. -/
theorem size_ofArrivals :
    (ofArrivals history).size = (history.map Prod.fst).dedup.length := by
  rw [← length_keys]
  refine List.Perm.length_eq ?_
  refine (perm_ext_iff_of_nodup (ofArrivals history).nodup (nodup_dedup _)).mpr ?_
  intro k
  rw [mem_dedup]
  exact mem_keys_ofArrivals history k

/-- The first insertion moves to 13 buckets; up to 13 keys stay there. -/
theorem bucketCount_set {m : UnorderedMap κ α} {v : α} (hk : k ∉ m.keys)
    (hn : m.size < firstBucketCount)
    (hb : m.bucketCount = if m.size = 0 then 1 else firstBucketCount) :
    (m.set k v).bucketCount = firstBucketCount ∧
      (m.set k v).nodes = insertBucketBegin firstBucketCount (k, v) m.nodes := by
  unfold firstBucketCount at *
  have hnext : nextBucketCount m.bucketCount m.size = 13 := by
    unfold nextBucketCount
    by_cases h0 : m.size = 0
    · rw [hb, if_pos h0, if_pos rfl]
    · rw [hb, if_neg h0, if_neg (by omega), if_pos (by omega)]
  unfold set
  rw [dif_neg hk]
  dsimp only
  rw [hnext]
  refine ⟨rfl, ?_⟩
  split_ifs with hne
  · rfl
  · have h0 : m.nodes = [] := by
      by_contra hnil
      have hpos : m.size ≠ 0 := fun h => hnil (length_eq_zero_iff.mp h)
      exact hne (by rw [hb, if_neg hpos])
    rw [h0]
    rfl

/-- What a history of at most 13 distinct keys leaves behind. -/
theorem ofArrivals_spec
    (hn : (ofArrivals history).size ≤ firstBucketCount) :
    SortedBy (history.map Prod.fst) (ofArrivals history).nodes ∧ (ofArrivals history).bucketCount =
        if (ofArrivals history).size = 0 then 1 else firstBucketCount := by
  induction history using List.reverseRecOn with
  | nil => exact ⟨List.Pairwise.nil, rfl⟩
  | append_singleton l p ih =>
    rw [ofArrivals_append] at hn ⊢
    rw [map_append]
    have hmem := mem_keys_ofArrivals l
    by_cases hk : p.1 ∈ (ofArrivals l).keys
    · rw [size_set, if_pos hk] at hn
      obtain ⟨hsorted, hcount⟩ := ih hn
      have hkeys : ∀ q ∈ (ofArrivals l).nodes, q.1 ∈ l.map Prod.fst :=
        fun q hq => (hmem q.1).mp (mem_keys_of_mem hq)
      refine ⟨?_, ?_⟩
      · -- an assignment to a present key moves no node
        have hold := hsorted.append hkeys p.1
        rw [SortedBy, ← pairwise_map (f := Prod.fst)] at hold ⊢
        rwa [set_nodes_of_mem hk, assignNodes_keys]
      · rw [size_set, if_pos hk]
        unfold set
        rw [dif_pos hk]
        exact hcount
    · rw [size_set, if_neg hk] at hn
      obtain ⟨hsorted, hcount⟩ := ih (by omega)
      obtain ⟨hcount', hnodes⟩ := bucketCount_set (v := p.2) hk (by omega) hcount
      refine ⟨?_, ?_⟩
      · rw [hnodes]
        refine sortedBy_insertBucketBegin (e := (p.1, p.2)) ?_ ?_ hsorted
        · intro k
          rw [← hmem k, keys, mem_map]
        · exact fun h => hk ((hmem p.1).mpr h)
      · rw [size_set, if_neg hk]
        exact hcount'

theorem keys_ofArrivals_pairwise {history : List (κ × α)}
    (hn : (ofArrivals history).size ≤ firstBucketCount) :
    (ofArrivals history).keys.Pairwise (IteratedBefore (history.map Prod.fst)) :=
  pairwise_map.mpr (ofArrivals_spec history hn).1

/-- **Iteration order.** Two histories that leave the same keys, at most 13 of them, are
iterated in the same order exactly when every pair of keys is ordered alike by the two
arrival orders. -/
theorem keys_ofArrivals_eq_iff {h₁ h₂ : List (κ × α)}
    (hsame : ∀ k, k ∈ h₁.map Prod.fst ↔ k ∈ h₂.map Prod.fst)
    (hn : (ofArrivals h₁).size ≤ firstBucketCount) :
    (ofArrivals h₁).keys = (ofArrivals h₂).keys ↔
      SameIterationOrder (h₁.map Prod.fst) (h₂.map Prod.fst) := by
  have hperm : (ofArrivals h₁).keys.Perm (ofArrivals h₂).keys := by
    refine (perm_ext_iff_of_nodup (ofArrivals h₁).nodup (ofArrivals h₂).nodup).mpr ?_
    intro k
    exact ((mem_keys_ofArrivals h₁ k).trans (hsame k)).trans (mem_keys_ofArrivals h₂ k).symm
  have hn₂ : (ofArrivals h₂).size ≤ firstBucketCount := by
    rw [← length_keys, ← hperm.length_eq, length_keys]
    exact hn
  have hp₁ := keys_ofArrivals_pairwise hn
  have hp₂ := keys_ofArrivals_pairwise hn₂
  constructor
  · intro heq i hi j hj
    rw [← heq] at hp₂
    by_cases hij : i = j
    · subst hij
      exact ⟨fun h => absurd h h.asymm, fun h => absurd h h.asymm⟩
    -- the two orders agree on the common list, in one direction or the other
    have hboth := (hp₁.and hp₂).imp (S := fun a b =>
      (IteratedBefore (h₁.map Prod.fst) a b ∧ IteratedBefore (h₂.map Prod.fst) a b) ∨
      (IteratedBefore (h₁.map Prod.fst) b a ∧ IteratedBefore (h₂.map Prod.fst) b a)) .inl
    have hsymm : Std.Symm (fun a b =>
        (IteratedBefore (h₁.map Prod.fst) a b ∧ IteratedBefore (h₂.map Prod.fst) a b) ∨
        (IteratedBefore (h₁.map Prod.fst) b a ∧ IteratedBefore (h₂.map Prod.fst) b a)) :=
      ⟨fun _ _ => Or.symm⟩
    have hi' := (mem_keys_ofArrivals h₁ i).mpr hi
    have hj' := (mem_keys_ofArrivals h₁ j).mpr hj
    rcases hboth.forall hi' hj' hij with ⟨ha, hb⟩ | ⟨ha, hb⟩
    · exact ⟨fun _ => hb, fun _ => ha⟩
    · exact ⟨fun h => absurd h ha.asymm, fun h => absurd h hb.asymm⟩
  · intro horder
    have hp₂' : (ofArrivals h₂).keys.Pairwise (IteratedBefore (h₁.map Prod.fst)) := by
      refine hp₂.imp_of_mem ?_
      intro a b ha hb hab
      refine (horder a ?_ b ?_).mpr hab
      · exact (mem_keys_ofArrivals h₁ a).mp (hperm.mem_iff.mpr ha)
      · exact (mem_keys_ofArrivals h₁ b).mp (hperm.mem_iff.mpr hb)
    exact List.Perm.eq_of_pairwise (fun a b _ _ hab hba => absurd hba hab.asymm) hp₁ hp₂' hperm

end UnorderedMap
