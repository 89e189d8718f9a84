import Mathlib.Data.List.Nodup
import Mathlib.Tactic

/-!
# Rcc.Lib.Dictionary

A finite map kept as the list of its bindings, with the distinctness of the keys carried by the
structure. Assigning to a present key keeps its place.
-/

namespace Dictionary

open List

variable {κ α : Type} {k : κ} {v : α} {l : List (κ × α)}

section lookup

variable [BEq κ] [LawfulBEq κ]

theorem lookup_eq_none_iff : l.lookup k = none ↔ k ∉ l.map Prod.fst := by
  rw [List.lookup_eq_none_iff, List.mem_map, not_exists]
  exact forall_congr' fun p => by simp [@eq_comm _ k]

theorem mem_of_lookup (h : l.lookup k = some v) : (k, v) ∈ l := by
  obtain ⟨l₁, l₂, rfl, -⟩ := List.lookup_eq_some_iff.mp h
  simp

theorem lookup_ne_none (h : (k, v) ∈ l) : l.lookup k ≠ none :=
  mt lookup_eq_none_iff.mp (not_not.mpr (List.mem_map_of_mem h))

theorem lookup_eq_some_iff (hnodup : (l.map Prod.fst).Nodup) :
    l.lookup k = some v ↔ (k, v) ∈ l := by
  refine ⟨mem_of_lookup, fun h => ?_⟩
  obtain ⟨v', hv'⟩ := Option.ne_none_iff_exists'.mp (lookup_ne_none h)
  rw [hv', (Prod.mk.inj (inj_on_of_nodup_map hnodup (mem_of_lookup hv') h rfl)).2]

theorem lookup_eq_of_perm {l' : List (κ × α)} (hnodup : (l.map Prod.fst).Nodup) (hperm : l.Perm l')
    (k : κ) : l.lookup k = l'.lookup k := by
  have hnodup' : (l'.map Prod.fst).Nodup := (hperm.map _).nodup_iff.mp hnodup
  refine Option.ext fun v => ?_
  rw [lookup_eq_some_iff hnodup, lookup_eq_some_iff hnodup', hperm.mem_iff]

end lookup

variable [DecidableEq κ]

/-- Replace the binding of `k`, or add one at the end. -/
def put (k : κ) (v : α) : List (κ × α) → List (κ × α)
  | [] => [(k, v)]
  | p :: l => if p.1 = k then (k, v) :: l else p :: put k v l

theorem keys_put_of_mem (h : k ∈ l.map Prod.fst) : (put k v l).map Prod.fst = l.map Prod.fst := by
  induction l with
  | nil => cases h
  | cons p l ih =>
    unfold put
    split_ifs with hp
    · simp [hp]
    · have hl : k ∈ l.map Prod.fst := by
        rcases List.mem_cons.mp h with rfl | hl
        · exact absurd rfl hp
        · exact hl
      simp [ih hl]

theorem put_of_not_mem (h : k ∉ l.map Prod.fst) : put k v l = l ++ [(k, v)] := by
  induction l with
  | nil => rfl
  | cons p l ih =>
    rw [List.map_cons, List.mem_cons, not_or] at h
    rw [put, if_neg (Ne.symm h.1), ih h.2, List.cons_append]

theorem nodup_put (h : (l.map Prod.fst).Nodup) : ((put k v l).map Prod.fst).Nodup := by
  by_cases hk : k ∈ l.map Prod.fst
  · rwa [keys_put_of_mem hk]
  · rw [put_of_not_mem hk, List.map_append, List.map_singleton]
    refine List.nodup_append.mpr ⟨h, nodup_singleton _, ?_⟩
    intro a ha b hb hab
    rw [mem_singleton] at hb
    rw [hab, hb] at ha
    exact hk ha

theorem lookup_put_self (k : κ) (v : α) (l : List (κ × α)) : (put k v l).lookup k = some v := by
  induction l with
  | nil => simp [put]
  | cons p l ih =>
    unfold put
    split_ifs with hp
    · simp
    · rw [lookup_cons, beq_false_of_ne (Ne.symm hp), ih]

theorem lookup_put_ne {k' : κ} (h : k' ≠ k) (v : α) (l : List (κ × α)) :
    (put k v l).lookup k' = l.lookup k' := by
  induction l with
  | nil => simp [put, h]
  | cons p l ih =>
    unfold put
    split_ifs with hp
    · rw [lookup_cons, lookup_cons, hp, beq_false_of_ne h]
    · rw [lookup_cons, lookup_cons, ih]

end Dictionary

/-- The bindings of a finite map, in the order in which their keys were first set. -/
structure Dictionary (κ α : Type) where
  entries : List (κ × α)
  nodup : (entries.map Prod.fst).Nodup

namespace Dictionary

variable {κ α : Type}

instance [DecidableEq κ] [DecidableEq α] : DecidableEq (Dictionary κ α) := fun d d' =>
  decidable_of_iff (d.entries = d'.entries) (by cases d; cases d'; simp)

def empty : Dictionary κ α := ⟨[], List.nodup_nil⟩

instance : EmptyCollection (Dictionary κ α) := ⟨empty⟩

def keys (d : Dictionary κ α) : List κ := d.entries.map Prod.fst

variable [DecidableEq κ] {k : κ} {d : Dictionary κ α} {as : List (κ × α)}

def get? (d : Dictionary κ α) (k : κ) : Option α := d.entries.lookup k

def set (d : Dictionary κ α) (k : κ) (v : α) : Dictionary κ α :=
  ⟨put k v d.entries, nodup_put d.nodup⟩

/-- The dictionary of a list of bindings; of two with one key the later counts. -/
def ofList (l : List (κ × α)) : Dictionary κ α := l.foldl (fun d p => d.set p.1 p.2) ∅

@[simp] theorem get?_set_self (d : Dictionary κ α) (k : κ) (v : α) : (d.set k v).get? k = some v :=
  lookup_put_self k v d.entries

theorem get?_set_ne (d : Dictionary κ α) {k' : κ} (h : k' ≠ k) (v : α) :
    (d.set k v).get? k' = d.get? k' := lookup_put_ne h v d.entries

theorem mem_keys_iff : k ∈ d.keys ↔ (d.get? k).isSome := by
  rw [Option.isSome_iff_ne_none]
  exact not_iff_comm.mp (lookup_eq_none_iff (l := d.entries)).symm |>.symm

theorem entries_set_of_not_mem (h : k ∉ d.keys) (v : α) :
    (d.set k v).entries = d.entries ++ [(k, v)] := put_of_not_mem h

/-- Assigning to the key that was added last. -/
theorem entries_set_concat {l : List (κ × α)} {v : α} (h : d.entries = l ++ [(k, v)]) (v' : α) :
    (d.set k v').entries = l ++ [(k, v')] := by
  have hk : k ∉ l.map Prod.fst := by
    have hnodup := d.nodup
    rw [h, List.map_append] at hnodup
    exact fun hk => (List.nodup_append.mp hnodup).2.2 k hk k List.mem_cons_self rfl
  have hput : ∀ l : List (κ × α), k ∉ l.map Prod.fst →
      put k v' (l ++ [(k, v)]) = l ++ [(k, v')] := by
    intro l hl
    induction l with
    | nil => simp [put]
    | cons p l ih =>
      rw [List.map_cons, List.mem_cons, not_or] at hl
      rw [List.cons_append, put, if_neg (Ne.symm hl.1), ih hl.2, List.cons_append]
  show put k v' d.entries = _
  rw [h, hput l hk]

theorem get?_eq_some_iff {v : α} : d.get? k = some v ↔ (k, v) ∈ d.entries :=
  lookup_eq_some_iff d.nodup

omit [DecidableEq κ] in
theorem nodup_filter {l : List (κ × α)} (h : (l.map Prod.fst).Nodup) (p : κ × α → Bool) :
    ((l.filter p).map Prod.fst).Nodup := h.sublist (List.filter_sublist.map _)

/-- The bindings that meet a condition. -/
def filter (p : κ × α → Bool) (d : Dictionary κ α) : Dictionary κ α :=
  ⟨d.entries.filter p, nodup_filter d.nodup p⟩

/-- A run of assignments. -/
def setAll (d : Dictionary κ α) (as : List (κ × α)) : Dictionary κ α :=
  as.foldl (fun d a => d.set a.1 a.2) d

theorem get?_setAll_of_not_mem (h : k ∉ as.map Prod.fst) (d : Dictionary κ α) :
    (d.setAll as).get? k = d.get? k := by
  induction as generalizing d with
  | nil => rfl
  | cons a as ih =>
    rw [List.map_cons, List.mem_cons, not_or] at h
    exact (ih h.2 (d.set a.1 a.2)).trans (get?_set_ne _ h.1 _)

/-- Assignments that agree with `d₀` make a dictionary agree with it at the keys assigned. -/
theorem get?_setAll_of_agree {d₀ : Dictionary κ α} (hagree : ∀ a ∈ as, d₀.get? a.1 = some a.2)
    (h : k ∈ as.map Prod.fst) (d : Dictionary κ α) : (d.setAll as).get? k = d₀.get? k := by
  induction as generalizing d with
  | nil => cases h
  | cons a as ih =>
    have hrest : ∀ a ∈ as, d₀.get? a.1 = some a.2 := fun a ha =>
      hagree a (List.mem_cons_of_mem _ ha)
    by_cases hk : k ∈ as.map Prod.fst
    · exact ih hrest hk _
    · obtain rfl : k = a.1 := (List.mem_cons.mp h).resolve_right hk
      refine (get?_setAll_of_not_mem hk (d.set a.1 a.2)).trans ?_
      rw [get?_set_self, hagree a List.mem_cons_self]

/-- Assignments to different keys all stay. -/
theorem get?_setAll_of_mem (hnodup : (as.map Prod.fst).Nodup) {v : α} (h : (k, v) ∈ as)
    (d : Dictionary κ α) : (d.setAll as).get? k = some v := by
  have hagree : ∀ a ∈ as, (⟨as, hnodup⟩ : Dictionary κ α).get? a.1 = some a.2 := fun a ha =>
    get?_eq_some_iff.mpr ha
  rw [get?_setAll_of_agree hagree (List.mem_map_of_mem h), hagree (k, v) h]

end Dictionary
