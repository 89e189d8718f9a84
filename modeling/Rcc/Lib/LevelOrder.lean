import Mathlib.Data.List.Nodup
import Mathlib.Tactic

/-!
# Rcc.Lib.LevelOrder

The tree of a given width whose nodes are numbered level by level: the children of `p` are
`p * width + 1` to `p * width + width`.

* `Below` — reached from a node downwards through nodes that are not live;
* `firstLive` — the traversal that stops at the first live node of each branch;
* `mem_firstLive_zero`, `nodup_firstLive` — it finds the live nodes below, each once;
* `Below.unique`, `exists_below` — each node is below exactly one live node if the root is live.
-/

namespace LevelOrder

open List

variable (width : Nat)

def child (p i : Nat) : Nat := p * width + i + 1

def parent (k : Nat) : Nat := (k - 1) / width

variable {width} {p i k : Nat}

theorem parent_child (hi : i < width) : parent width (child width p i) = p := by
  have hsum : child width p i - 1 = i + width * p := by
    rw [child, Nat.mul_comm p]
    omega
  rw [parent, hsum, Nat.add_mul_div_left _ _ (by omega), Nat.div_eq_of_lt hi, Nat.zero_add]

theorem exists_child (hwidth : 0 < width) (hk : 0 < k) :
    ∃ i < width, k = child width (parent width k) i := by
  refine ⟨(k - 1) % width, Nat.mod_lt _ hwidth, ?_⟩
  have := Nat.div_add_mod' (k - 1) width
  rw [child, parent]
  omega

theorem parent_lt (hk : 0 < k) : parent width k < k := by
  have := Nat.div_le_self (k - 1) width
  rw [parent]
  omega

theorem lt_child (hi : i < width) : p < child width p i := by
  have := Nat.le_mul_of_pos_right p (by omega : 0 < width)
  rw [child]
  omega

/-! ### Descent -/

variable {a b : Nat}

/-- The node itself or one below it. -/
inductive Desc (width a : Nat) : Nat → Prop where
  | refl : Desc width a a
  | step {k : Nat} (hk : 0 < k) (h : Desc width a (parent width k)) : Desc width a k

theorem Desc.le (h : Desc width a k) : a ≤ k := by
  induction h with
  | refl => exact le_rfl
  | step hk _ ih => exact ih.trans (parent_lt hk).le

/-- Of two nodes above a third, one is above the other. -/
theorem Desc.linear (ha : Desc width a k) (hb : Desc width b k) :
    Desc width a b ∨ Desc width b a := by
  induction ha with
  | refl => exact .inr hb
  | step hk h ih =>
    cases hb with
    | refl => exact .inl (.step hk h)
    | step _ hb => exact ih hb

/-- The branches of two siblings have nothing in common. -/
theorem eq_of_desc_siblings (ha : Desc width a k) (hb : Desc width b k) (hpos : 0 < a)
    (hpos' : 0 < b) (hparent : parent width a = parent width b) : a = b := by
  -- above a sibling there is only what is above the parent
  have habove : ∀ {x y : Nat}, 0 < x → parent width x = parent width y →
      Desc width x y → x = y := by
    intro x y hx hxy h
    cases h with
    | refl => rfl
    | step _ h =>
      have := h.le
      have := @parent_lt width x hx
      omega
  rcases ha.linear hb with h | h
  · exact habove hpos hparent h
  · exact (habove hpos' hparent.symm h).symm

variable {live live' : Nat → Bool}

/-- Below `p`, with no live node between. -/
inductive Below (width : Nat) (live : Nat → Bool) (p : Nat) : Nat → Prop where
  | child {k : Nat} (hk : 0 < k) (h : parent width k = p) : Below width live p k
  | step {k : Nat} (hk : 0 < k) (h : Below width live p (parent width k))
      (hdead : live (parent width k) = false) : Below width live p k

theorem Below.desc (h : Below width live p k) : 0 < k ∧ Desc width p (parent width k) := by
  induction h with
  | child hk h => exact ⟨hk, h ▸ .refl⟩
  | step hk _ _ ih => exact ⟨hk, .step ih.1 ih.2⟩

theorem Below.lt (h : Below width live p k) : p < k :=
  Nat.lt_of_le_of_lt h.desc.2.le (parent_lt h.desc.1)

/-- The first step down. -/
theorem below_iff (hwidth : 0 < width) :
    Below width live p k ↔ ∃ i < width, k = child width p i ∨
      live (child width p i) = false ∧ Below width live (child width p i) k := by
  constructor
  · intro h
    induction h with
    | child hk h =>
      obtain ⟨i, hi, heq⟩ := exists_child hwidth hk
      exact ⟨i, hi, .inl (h ▸ heq)⟩
    | @step k hk _ hdead ih =>
      obtain ⟨i, hi, heq | ⟨hchild, hbelow⟩⟩ := ih
      · exact ⟨i, hi, .inr ⟨heq ▸ hdead, .child hk heq⟩⟩
      · exact ⟨i, hi, .inr ⟨hchild, .step hk hbelow hdead⟩⟩
  · rintro ⟨i, hi, rfl | ⟨hdead, hbelow⟩⟩
    · exact .child (Nat.succ_pos _) (parent_child hi)
    · induction hbelow with
      | child hk h => exact .step hk (h ▸ .child (Nat.succ_pos _) (parent_child hi)) (h ▸ hdead)
      | step hk _ hdead' ih => exact .step hk ih hdead'

/-- No node is below two live ones. -/
theorem Below.unique {q : Nat} (hp : Below width live p k) (hq : Below width live q k)
    (hlive : live p = true) (hlive' : live q = true) : p = q := by
  induction hp with
  | child hk h =>
    cases hq with
    | child _ h' => exact h.symm.trans h'
    | step _ _ hdead => simp [h, hlive] at hdead
  | step hk _ hdead ih =>
    cases hq with
    | child _ h' => simp [h', hlive'] at hdead
    | step _ hq _ => exact ih hq

/-- There is a live node above. -/
def Covered (width : Nat) (live : Nat → Bool) (k : Nat) : Prop :=
  ∃ p, live p = true ∧ Below width live p k

/-- If the root is live, every other node is below a live one. -/
theorem exists_below (hroot : live 0 = true) (hk : 0 < k) : Covered width live k := by
  induction k using Nat.strong_induction_on with
  | h k ih =>
    cases hlive : live (parent width k) with
    | true => exact ⟨_, hlive, .child hk rfl⟩
    | false =>
      have hpos : 0 < parent width k := by
        rcases Nat.eq_zero_or_pos (parent width k) with hzero | hpos
        · simp [hzero, hroot] at hlive
        · exact hpos
      obtain ⟨p, hp, hbelow⟩ := ih _ (parent_lt hk) hpos
      exact ⟨p, hp, .step hk hbelow hlive⟩

/-- Strictly below `p`; in a tree of width 0 nothing is. -/
def Under (width p k : Nat) : Prop := 0 < width ∧ 0 < k ∧ Desc width p (parent width k)

theorem Under.lt (h : Under width p k) : p < k := Nat.lt_of_le_of_lt h.2.2.le (parent_lt h.2.1)

theorem under_zero (hwidth : 0 < width) (hk : 0 < k) : Under width 0 k := by
  have hdesc : ∀ q, Desc width 0 q := by
    intro q
    induction q using Nat.strong_induction_on with
    | h q ih =>
      rcases Nat.eq_zero_or_pos q with rfl | hpos
      · exact .refl
      · exact .step hpos (ih _ (parent_lt hpos))
  exact ⟨hwidth, hk, hdesc _⟩

theorem Under.trans (h : Under width a b) (h' : Under width b k) : Under width a k := by
  obtain ⟨hwidth, hk, hdesc⟩ := h'
  refine ⟨hwidth, hk, ?_⟩
  generalize parent width k = q at hdesc ⊢
  induction hdesc with
  | refl => exact .step h.2.1 h.2.2
  | step hk _ ih => exact .step hk ih

theorem Below.under (hwidth : 0 < width) (h : Below width live p k) :
    Under width p k := ⟨hwidth, h.desc⟩

/-- The next live node above is reached before the way up comes to `p`, or `p` is. -/
theorem Under.below_or (h : Under width p k) : Below width live p k ∨ Covered width live k := by
  obtain ⟨-, hk, hdesc⟩ := h
  generalize hq : parent width k = q at hdesc
  induction hdesc generalizing k with
  | refl => exact .inl (.child hk hq)
  | @step q hpos _ ih =>
    cases hlive : live q with
    | true => exact .inr ⟨q, hlive, .child hk hq⟩
    | false =>
      rcases ih hpos rfl with hbelow | ⟨q', hq', hbelow⟩
      · exact .inl (.step hk (hq ▸ hbelow) (hq ▸ hlive))
      · exact .inr ⟨q', hq', .step hk (hq ▸ hbelow) (hq ▸ hlive)⟩

/-- Between there is no live node. -/
theorem Below.dead {q : Nat} (h : Below width live p k) (hq : Under width p q)
    (hk : Under width q k) : live q = false := by
  obtain ⟨-, -, hdesc⟩ := hk
  have hlt := hq.lt
  induction h with
  | child _ hp => exact absurd (hp ▸ hdesc).le (Nat.not_le.mpr hlt)
  | step _ _ hdead ih =>
    cases hdesc with
    | refl => exact hdead
    | step _ hdesc => exact ih hdesc

/-! ### The traversal -/

variable {last : Nat}

/-- From the `i`-th child of `p` on, up to the node `last`. -/
def firstLive (width : Nat) (live : Nat → Bool) (last p i : Nat) : List Nat :=
  if i < width ∧ child width p i ≤ last then
    (if live (child width p i) then [child width p i]
      else firstLive width live last (child width p i) 0) ++ firstLive width live last p (i + 1)
  else []
termination_by (last - p, width - i)
decreasing_by
  · rename_i h _
    have := @lt_child width p i h.1
    exact Prod.Lex.left _ _ (by omega)
  · rename_i h
    exact Prod.Lex.right _ (by omega)

theorem mem_firstLive (hwidth : 0 < width) :
    k ∈ firstLive width live last p i ↔ k ≤ last ∧ live k = true ∧
      ∃ j, i ≤ j ∧ j < width ∧ (k = child width p j ∨
        live (child width p j) = false ∧ Below width live (child width p j) k) := by
  induction p, i using firstLive.induct width last with
  | case1 p i h ih ih' =>
    rw [firstLive, if_pos h, mem_append, ih']
    -- the `i`-th child is found, or what is found below it
    have hfirst : (k ∈ if live (child width p i) then [child width p i]
        else firstLive width live last (child width p i) 0) ↔ k ≤ last ∧ live k = true ∧
        (k = child width p i ∨ live (child width p i) = false ∧
          Below width live (child width p i) k) := by
      cases hlive : live (child width p i) with
      | true =>
        rw [if_pos rfl, mem_singleton]
        refine ⟨fun hk => ⟨hk ▸ h.2, hk ▸ hlive, .inl hk⟩, ?_⟩
        rintro ⟨_, _, hk | ⟨hdead, _⟩⟩
        · exact hk
        · cases hdead
      | false =>
        rw [if_neg (by simp), ih, below_iff hwidth]
        refine ⟨fun ⟨hle, hk, j, _, hj⟩ => ⟨hle, hk, .inr ⟨rfl, j, hj⟩⟩, ?_⟩
        rintro ⟨hle, hk, rfl | ⟨_, j, hj⟩⟩
        · simp [hlive] at hk
        · exact ⟨hle, hk, j, Nat.zero_le _, hj⟩
    rw [hfirst]
    constructor
    · rintro (⟨hle, hk, hbelow⟩ | ⟨hle, hk, j, hij, hj, hbelow⟩)
      · exact ⟨hle, hk, i, le_rfl, h.1, hbelow⟩
      · exact ⟨hle, hk, j, by omega, hj, hbelow⟩
    · rintro ⟨hle, hk, j, hij, hj, hbelow⟩
      rcases Nat.eq_or_lt_of_le hij with rfl | hlt
      · exact .inl ⟨hle, hk, hbelow⟩
      · exact .inr ⟨hle, hk, j, hlt, hj, hbelow⟩
  | case2 p i h =>
    rw [firstLive, if_neg h]
    refine iff_of_false not_mem_nil ?_
    rintro ⟨hle, _, j, hij, hj, hbelow⟩
    have hmono : child width p i ≤ child width p j := by
      rw [child, child]
      omega
    refine h ⟨by omega, hmono.trans (le_trans ?_ hle)⟩
    rcases hbelow with rfl | ⟨_, hbelow⟩
    · exact le_rfl
    · exact hbelow.lt.le

/-- **The traversal finds the live nodes below.** -/
theorem mem_firstLive_zero (hwidth : 0 < width) :
    k ∈ firstLive width live last p 0 ↔
      k ≤ last ∧ live k = true ∧ Below width live p k := by
  rw [mem_firstLive hwidth, below_iff hwidth]
  simp

/-- If all nodes behind `p` are live but `dead`, the children of `p` are found, and those of `dead`
in its place. -/
theorem mem_firstLive_of_one_dead (hwidth : 0 < width) {dead : Nat}
    (h : ∀ e, p < e → e ≤ last → (live e = true ↔ e ≠ dead)) :
    k ∈ firstLive width live last p 0 ↔ 0 < k ∧ k ≤ last ∧ k ≠ dead ∧
      (parent width k = p ∨ parent width k = dead ∧ 0 < dead ∧ parent width dead = p) := by
  rw [mem_firstLive_zero hwidth]
  constructor
  · rintro ⟨hlast, hlive, hbelow⟩
    refine ⟨hbelow.desc.1, hlast, (h k hbelow.lt hlast).mp hlive, ?_⟩
    cases hbelow with
    | child _ hparent => exact .inl hparent
    | step hk hbelow hdead =>
      have hlt := @parent_lt width k hk
      have heq : parent width k = dead := by
        by_contra hne
        rw [(h _ hbelow.lt (by omega)).mpr hne] at hdead
        cases hdead
      rw [heq] at hbelow hlt
      refine .inr ⟨heq, hbelow.desc.1, ?_⟩
      cases hbelow with
      | child _ hparent => exact hparent
      | step hpos hbelow hdead =>
        have hlt' := @parent_lt width dead hpos
        rw [(h _ hbelow.lt (by omega)).mpr (by omega)] at hdead
        cases hdead
  · rintro ⟨hk, hlast, hne, hparent | ⟨hparent, hpos, hgrand⟩⟩
    · have hlt := @parent_lt width k hk
      exact ⟨hlast, (h k (by omega) hlast).mpr hne, .child hk hparent⟩
    · have hlt := @parent_lt width k hk
      have hlt' := @parent_lt width dead hpos
      have hdead : live dead = false := by
        rw [← Bool.not_eq_true, h dead (by omega) (by omega)]
        simp
      refine ⟨hlast, (h k (by omega) hlast).mpr hne, .step hk ?_ (hparent ▸ hdead)⟩
      exact hparent ▸ .child hpos hgrand

/-- **It finds each of them once.** -/
theorem nodup_firstLive (hwidth : 0 < width) (last p i : Nat) :
    (firstLive width live last p i).Nodup := by
  -- what is found from a child on stands in the branch of that child
  have hbranch : ∀ {p j k : Nat}, (k = child width p j ∨ live (child width p j) = false ∧
      Below width live (child width p j) k) →
      Desc width (child width p j) k := by
    rintro p j k (rfl | ⟨_, hbelow⟩)
    · exact .refl
    · exact .step hbelow.desc.1 hbelow.desc.2
  induction p, i using firstLive.induct width last with
  | case1 p i h ih ih' =>
    rw [firstLive, if_pos h, nodup_append]
    refine ⟨?_, ih', fun k hk k' hk' heq => ?_⟩
    · split
      · exact nodup_singleton _
      · exact ih
    · subst heq
      obtain ⟨_, _, j, hij, hj, hk'⟩ := (mem_firstLive hwidth).mp hk'
      have hdesc : Desc width (child width p i) k := by
        split at hk
        · rw [mem_singleton.mp hk]
          exact .refl
        · have hbelow := ((mem_firstLive_zero hwidth).mp hk).2.2
          exact .step hbelow.desc.1 hbelow.desc.2
      have := eq_of_desc_siblings hdesc (hbranch hk') (Nat.succ_pos _) (Nat.succ_pos _)
        ((parent_child h.1).trans (parent_child hj).symm)
      simp only [child] at this
      omega
  | case2 p i h =>
    rw [firstLive, if_neg h]
    exact nodup_nil

/-- Only what stands behind `p` matters. -/
theorem firstLive_congr (h : ∀ k, p < k → k ≤ last → live k = live' k) (i : Nat) :
    firstLive width live last p i = firstLive width live' last p i := by
  induction p, i using firstLive.induct width last with
  | case1 p i hi ih ih' =>
    have hlt := @lt_child width p i hi.1
    rw [firstLive, if_pos hi, ih' h, ih fun k hk => h k (hlt.trans hk), h _ hlt hi.2]
    conv_rhs => rw [firstLive, if_pos hi]
  | case2 p i hi => rw [firstLive, if_neg hi, firstLive, if_neg hi]

end LevelOrder
