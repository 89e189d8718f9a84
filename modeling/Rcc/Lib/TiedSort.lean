import Mathlib.Data.List.Perm.Basic
import Mathlib.Tactic

/-!
# Rcc.Lib.TiedSort

What threads collect from a map, and sorting by a key that does not tell all elements apart. What
an unstable sort may return is any arrangement in which no element stands after one of a larger
key. Where the elements also carry a tag, the tags come out in one order if elements with equal
keys have equal tags (`SortedBy.map_eq`).
-/

section

variable {α κ K T : Type} {f : κ → List α} {l l' : List α} {key : α → K} {tag : α → T}

/-- The elements that a map has for its keys, in the order in which they were collected. -/
def Gathers (f : κ → List α) (l : List α) : Prop :=
  ∃ keys : List κ, keys.Nodup ∧ (∀ k, f k ≠ [] → k ∈ keys) ∧ l.Perm (keys.flatMap f)

/-- Keys without elements add nothing. -/
theorem flatMap_filter_isEmpty (f : κ → List α) (keys : List κ) :
    (keys.filter fun k => !(f k).isEmpty).flatMap f = keys.flatMap f := by
  induction keys with
  | nil => rfl
  | cons k keys ih =>
    rw [List.filter_cons, List.flatMap_cons, ← ih]
    cases hk : f k <;> simp [hk]

theorem Gathers.perm (h : Gathers f l) (h' : Gathers f l') : l.Perm l' := by
  obtain ⟨keys, hnodup, hkeys, hl⟩ := h
  obtain ⟨keys', hnodup', hkeys', hl'⟩ := h'
  have hperm : (keys.filter fun k => !(f k).isEmpty).Perm
      (keys'.filter fun k => !(f k).isEmpty) := by
    refine (List.perm_ext_iff_of_nodup (hnodup.filter _) (hnodup'.filter _)).mpr fun k => ?_
    simp only [List.mem_filter, Bool.not_eq_true', List.isEmpty_eq_false_iff]
    exact and_congr_left fun hk => iff_of_true (hkeys k hk) (hkeys' k hk)
  have hflat := hperm.flatMap_right f
  rw [flatMap_filter_isEmpty, flatMap_filter_isEmpty] at hflat
  exact hl.trans (hflat.trans hl'.symm)

theorem Gathers.of_perm (h : Gathers f l) (hperm : l'.Perm l) : Gathers f l' := by
  obtain ⟨keys, hnodup, hkeys, hl⟩ := h
  exact ⟨keys, hnodup, hkeys, hperm.trans hl⟩

theorem Gathers.mem_iff (h : Gathers f l) {a : α} : a ∈ l ↔ ∃ k, a ∈ f k := by
  obtain ⟨keys, -, hkeys, hl⟩ := h
  rw [hl.mem_iff, List.mem_flatMap]
  exact exists_congr fun k => and_iff_right_of_imp fun ha => hkeys k (List.ne_nil_of_mem ha)

/-- Elements with equal keys have equal tags. -/
def Untied (key : α → K) (tag : α → T) (l : List α) : Prop :=
  ∀ a ∈ l, ∀ b ∈ l, key a = key b → tag a = tag b

variable [LinearOrder K]

/-- What a sort by `key` may leave. -/
def SortedBy (key : α → K) (l : List α) : Prop := l.Pairwise fun a b => ¬ key b < key a

/-- **Without tied elements of different tags the result of the sort is determined.** -/
theorem SortedBy.map_eq (tag : α → T) (h : SortedBy key l) (h' : SortedBy key l')
    (hperm : (l.map fun a => (key a, tag a)).Perm (l'.map fun a => (key a, tag a)))
    (huntied : Untied key tag l) :
    (l.map fun a => (key a, tag a)) = l'.map fun a => (key a, tag a) := by
  have hsorted : ∀ {m : List α}, SortedBy key m →
      (m.map fun a => (key a, tag a)).Pairwise fun x y => ¬ y.1 < x.1 :=
    fun hm => List.pairwise_map.mpr hm
  refine List.Perm.eq_of_pairwise ?_ (hsorted h) (hsorted h') hperm
  intro x y hx hy hxy hyx
  obtain ⟨a, ha, rfl⟩ := List.mem_map.mp hx
  obtain ⟨b, hb, rfl⟩ := List.mem_map.mp (hperm.mem_iff.mpr hy)
  have hkey : key a = key b := le_antisymm (not_lt.mp hxy) (not_lt.mp hyx)
  exact Prod.ext hkey (huntied a ha b hb hkey)

end
