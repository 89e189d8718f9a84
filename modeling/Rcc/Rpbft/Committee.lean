import Rcc.Lib.Window
import Rcc.Rpbft.Engine

/-!
# Rcc.Rpbft.Committee

The committee of a height in closed form, and when the incremental engine follows it.

* `Chain.rounds` — which window of the sealers the committee of a height is;
* `Settled` — the engine's state is the closed form at some height;
* `Steady` — the calls of `resetConfig` after which it is again: no rotation is overdue, and the
  epoch size that has not changed still fits the sealers;
* `committee_agreement` — nodes whose calls are steady agree at every height they share.
-/

namespace Rcc.Rpbft

open List Node

open Window (window mem_window window_mod window_succ window_rotate)

variable {I : Type} {chain : Chain I} {h : Nat} {e e' : Engine I}

/-! ## Rounds and the epoch size -/

/-- The rotations between the enable number and height `h`. -/
def Chain.rounds (chain : Chain I) (h : Nat) : Nat :=
  (h - chain.enableNumber h) / chain.epochBlockNum h

theorem Engine.roundsSince_eq (hm : e.rotatingInterval = chain.epochBlockNum h)
    (hE : e.rotatingIntervalEnableNumber = chain.enableNumber h)
    (hreg : h < chain.enableNumber h → 1 < chain.epochBlockNum h) :
    e.roundsSince h = chain.rounds h := by
  rw [roundsSince, Chain.rounds, hm, hE]
  rcases Nat.lt_or_ge h (chain.enableNumber h) with hlt | hge
  · -- the interval comes into force with the next block: one block short of round zero
    have hle := chain.enableNumber_le h
    have hm1 := hreg hlt
    rw [show (h : Int) - chain.enableNumber h = -1 by omega, Int.neg_tdiv,
      Int.tdiv_eq_zero_of_lt (by omega) (by omega), Nat.sub_eq_zero_of_le (by omega)]
    simp
  · rw [← Int.ofNat_sub hge]
    rfl

theorem Chain.rounds_due (chain : Chain I) (h : Nat) :
    (h : Int) - chain.enableNumber h - chain.rounds h * chain.epochBlockNum h
      < chain.epochBlockNum h := by
  have hm := chain.epochBlockNum_pos h
  have hdiv := Nat.lt_div_mul_add (a := h - chain.enableNumber h) hm
  rw [Chain.rounds]
  have : ((h - chain.enableNumber h : Nat) : Int)
      < ((h - chain.enableNumber h) / chain.epochBlockNum h * chain.epochBlockNum h
        + chain.epochBlockNum h : Nat) := by exact_mod_cast hdiv
  push_cast at this ⊢
  omega

/-- Round `r'` is due at height `h` if the last one was `r`: no rotation, or one. -/
def Due (h E m r r' : Nat) : Prop :=
  r' = r ∧ (h : Int) - E - r * m < m ∨ r' = r + 1 ∧ (m : Int) ≤ h - E - r * m

/-- From a height to a later one under the same interval: the round that is due is the old one
or, if no rotation has been missed, the next. -/
theorem Chain.rounds_step {h₀ : Nat} (hle : h₀ ≤ h)
    (hm : chain.epochBlockNum h₀ = chain.epochBlockNum h)
    (hE : chain.enableNumber h₀ = chain.enableNumber h)
    (hdue : (h : Int) - chain.enableNumber h < (chain.rounds h₀ + 2) * chain.epochBlockNum h) :
    Due h (chain.enableNumber h) (chain.epochBlockNum h) (chain.rounds h₀) (chain.rounds h) := by
  have hold : chain.rounds h₀ * chain.epochBlockNum h ≤ h - chain.enableNumber h := by
    have := Nat.div_mul_le_self (h₀ - chain.enableNumber h₀) (chain.epochBlockNum h₀)
    rw [Chain.rounds, ← hm]
    omega
  have hround : chain.rounds h = (h - chain.enableNumber h) / chain.epochBlockNum h := rfl
  have hpos := chain.epochBlockNum_pos h
  generalize chain.rounds h₀ = r at *
  generalize chain.epochBlockNum h = m at *
  rcases Nat.lt_or_ge (h - chain.enableNumber h) ((r + 1) * m) with hlt | hge
  · refine .inl ⟨hround.trans (Nat.div_eq_of_lt_le hold hlt), ?_⟩
    have : ((h - chain.enableNumber h : Nat) : Int) < ((r + 1) * m : Nat) := by exact_mod_cast hlt
    push_cast [add_mul, one_mul] at this ⊢
    omega
  · have hhE : chain.enableNumber h ≤ h := by
      by_contra hcon
      rw [Nat.sub_eq_zero_of_le (by omega)] at hge
      have : 0 < (r + 1) * m := Nat.mul_pos (by omega) hpos
      omega
    rw [← Int.ofNat_sub hhE] at *
    refine .inr ⟨hround.trans (Nat.div_eq_of_lt_le hge (by exact_mod_cast hdue)), ?_⟩
    have : ((r + 1) * m : Nat) ≤ ((h - chain.enableNumber h : Nat) : Int) := by exact_mod_cast hge
    push_cast [add_mul, one_mul] at this ⊢
    omega

/-- After the beginning of `resetConfig` the interval is the chain's; the round is the closed form
or the one there was. -/
theorem Engine.refreshInterval_eq (hreg : h < chain.enableNumber h → 1 < chain.epochBlockNum h) :
    ∃ updated round, e.refreshInterval chain h = { e with
        rotatingInterval := (chain.epochBlockNum h : Int)
        rotatingIntervalEnableNumber := (chain.enableNumber h : Int)
        rotatingIntervalUpdated := updated
        rotatingRound := round } ∧
      (updated = false → e.rotatingInterval = chain.epochBlockNum h ∧
        e.rotatingIntervalEnableNumber = chain.enableNumber h ∧ round = e.rotatingRound) ∧
      (updated = true → round = chain.rounds h) := by
  simp only [refreshInterval, updateRotatingInterval]
  split
  · rename_i heq
    refine ⟨false, e.rotatingRound, ?_, fun _ => ⟨heq.1.symm, heq.2.symm, rfl⟩, nofun⟩
    rw [heq.1, heq.2]
    rfl
  · exact ⟨true, _, rfl, nofun, fun _ => roundsSince_eq rfl rfl hreg⟩

/-- An epoch size that fits, or is new, ends up cut down to the number of sealers. -/
theorem Engine.updateEpochSize_eq {n : Nat} (hnum : e.sealersNum = n)
    (hfit : e.epochSize = chain.epochSealerNum h → chain.epochSealerNum h ≤ n) :
    e.updateEpochSize chain h = (decide (e.epochSize ≠ (min (chain.epochSealerNum h) n : Nat)),
        { e with epochSize := (min (chain.epochSealerNum h) n : Nat) }) := by
  simp only [updateEpochSize]
  split_ifs with heq
  · have hmin : min (chain.epochSealerNum h) n = chain.epochSealerNum h :=
      min_eq_left (hfit heq.symm)
    rw [hmin, heq]
    simp
  · have hcut : (if (chain.epochSealerNum h : Int) > e.sealersNum then e.sealersNum
        else chain.epochSealerNum h) = (min (chain.epochSealerNum h) n : Nat) := by
      rw [hnum]
      split <;> omega
    simp only [setEpochSealerNum, hcut]

theorem Engine.getNodeIDByIndex_eq [Inhabited I] {i : Nat} (hi : i < e.sealerList.length) :
    e.sealerList[i]? = some (e.getNodeIDByIndex i) := by
  simp [getNodeIDByIndex, List.getElem?_eq_getElem hi]

theorem Engine.getLeader_eq {view : Nat} {failed : Bool}
    (hlead : (e.getLeader view failed).1 = true) :
    e.getLeader view failed = (true, e.selectLeader view) := by
  simp only [getLeader] at hlead ⊢
  split at hlead
  · cases hlead
  · split at hlead
    · cases hlead
    · simp_all

variable [LinearOrder I]

/-! ## The closed form -/

namespace Chain

variable (chain : Chain I) (h : Nat)

def sealersNum : Nat := (chain.sortedSealers h).length

def epochSize : Nat := min (chain.epochSealerNum h) (chain.sealersNum h)

/-- The fault bound after block `h`. -/
def faults : Int :=
  idxType (min ((chain.epochSize h - 1 : Int).tdiv 3) ((chain.sealersNum h - 1 : Int).tdiv 3))

theorem sortedSealers_nodup : (chain.sortedSealers h).Nodup :=
  (perm_insertionSort _ _).nodup_iff.mpr (chain.nodup h)

theorem sealersNum_eq :
    chain.sealersNum h = (chain.sealerList h).length := (perm_insertionSort _ _).length_eq

end Chain

namespace Engine

/-- What a call of `resetConfig` at height `h` has to find.

* Under the interval the engine knows, at most one rotation is due: the engine makes one per call.
* The configured epoch size, if it is the engine's, does not exceed the number of sealers: the
  engine cuts down only a size that is new to it.
* An interval of one block is not the one that comes into force with the next block: the round
  would be negative.
* The index of a sealer fits in sixteen bits. -/
def Steady (chain : Chain I) (h : Nat) (e : Engine I) : Prop :=
  (e.rotatingInterval = chain.epochBlockNum h →
      e.rotatingIntervalEnableNumber = chain.enableNumber h →
      (h : Int) - chain.enableNumber h < (e.rotatingRound + 2) * chain.epochBlockNum h) ∧
    (e.epochSize = chain.epochSealerNum h → chain.epochSealerNum h ≤ (chain.sealerList h).length) ∧
    (h < chain.enableNumber h → 1 < chain.epochBlockNum h) ∧
    (chain.sealerList h).length ≤ 65536

instance : Decidable (Steady chain h e) := inferInstanceAs (Decidable (_ ∧ _ ∧ _ ∧ _))

/-! ## Placement

The part of the state that a rotation moves: the committee is the window of `k` sealers at
position `r`. -/

structure Placed (sealers : List I) (k r : Nat) (e : Engine I) : Prop where
  sealerList : e.sealerList = sealers
  sealersNum : e.sealersNum = sealers.length
  epochSize : e.epochSize = k
  rotatingRound : e.rotatingRound = r
  startNodeIdx : e.startNodeIdx = (r % sealers.length : Nat)
  chosed : e.chosedConsensusNodes = window sealers r k

variable {sealers : List I} {k r : Nat}

theorem gather_eq (start : Nat) (chosed : Finset I) (hstart : start < sealers.length) :
    gather sealers sealers.length k start chosed = some (chosed ∪ window sealers start k) := by
  induction k generalizing start chosed with
  | zero => simp [gather, window]
  | succ k ih =>
    have hpos : 0 < sealers.length := by omega
    have hx : sealers[start % sealers.length]? = some sealers[start] := by
      rw [Nat.mod_eq_of_lt hstart, List.getElem?_eq_getElem hstart]
    have hnext : ((start : Int) + 1).tmod sealers.length
        = ((start + 1) % sealers.length : Nat) := rfl
    rw [gather, if_pos (Int.natCast_nonneg start), Int.toNat_natCast,
      List.getElem?_eq_getElem hstart, Option.bind_some, hnext, ih _ _ (Nat.mod_lt _ hpos),
      window_mod, window_succ hx, Finset.insert_union, Finset.union_insert]

theorem rebuild_placed (hr : e.rebuild h = some e') (hne : sealers ≠ [])
    (hlist : e.sealerList = sealers) (hnum : e.sealersNum = sealers.length) (hk : e.epochSize = k)
    (hround : e.rotatingRound = r) (hfirst : e.startNodeIdx = -1 → e.roundsSince h = r) :
    e'.Placed sealers k r ∧ e'.rotatingInterval = e.rotatingInterval ∧
      e'.rotatingIntervalEnableNumber = e.rotatingIntervalEnableNumber ∧
      e'.highest = e.highest := by
  have hdue : (if e.startNodeIdx = -1 then e.roundsSince h else e.rotatingRound) = r := by
    split
    · exact hfirst ‹_›
    · exact hround
  have hpos : 0 < sealers.length := length_pos_iff.mpr hne
  have hstart : (r : Int).tmod sealers.length = (r % sealers.length : Nat) := rfl
  simp only [rebuild, hdue, hlist, hnum, hk, hstart, gather_eq _ _ (Nat.mod_lt r hpos), window_mod,
    Finset.empty_union, Option.map_some] at hr
  cases hr
  exact ⟨⟨rfl, rfl, rfl, rfl, rfl, rfl⟩, rfl, rfl, rfl⟩

/-- The committee is built anew, or it is kept and was in place. -/
theorem resetChosedConsensusNodes_placed (hr : e.resetChosedConsensusNodes chain h = some e')
    (hne : sealers ≠ []) (hlist : e.sealerList = sealers)
    (hnum : e.sealerListUpdated = false → e.sealersNum = sealers.length)
    (hround : e.rotatingRound = r) (hfirst : e.startNodeIdx = -1 → e.roundsSince h = r)
    (hinterval : e.rotatingInterval ≠ -1)
    (hfit : e.epochSize = chain.epochSealerNum h → chain.epochSealerNum h ≤ sealers.length)
    (hkept : e.sealerListUpdated = false → e.rotatingIntervalUpdated = false →
      ∃ k, e.Placed sealers k r) :
    e'.Placed sealers (min (chain.epochSealerNum h) sealers.length) r ∧
      e'.rotatingInterval = e.rotatingInterval ∧
      e'.rotatingIntervalEnableNumber = e.rotatingIntervalEnableNumber ∧
      e'.highest = e.highest := by
  have hn : (if e.sealerListUpdated then (e.sealerList.length : Int) else e.sealersNum)
      = sealers.length := by
    split
    · rw [hlist]
    · exact hnum (Bool.eq_false_iff.mpr ‹_›)
  have hup : { e with sealersNum := (sealers.length : Int) }.updateEpochSize chain h = _ :=
    updateEpochSize_eq rfl hfit
  simp only [resetChosedConsensusNodes, hn, hup] at hr
  split at hr
  · -- nothing is new: the committee stays, and so does the epoch size
    rename_i hkeep
    simp only [Bool.and_eq_true, Bool.not_eq_true', decide_eq_false_iff_not, not_not] at hkeep
    cases hr
    obtain ⟨k, hp⟩ := hkept hkeep.1.2 hkeep.2
    have hk : k = min (chain.epochSealerNum h) sealers.length := by
      have := hp.epochSize.symm.trans hkeep.1.1
      omega
    exact ⟨⟨hp.sealerList, rfl, rfl, hp.rotatingRound, hp.startNodeIdx, hk ▸ hp.chosed⟩,
      rfl, rfl, rfl⟩
  · rw [if_neg (not_or.mpr ⟨hinterval, by omega⟩)] at hr
    have hrebuilt := rebuild_placed hr hne hlist rfl rfl hround hfirst
    exact hrebuilt

/-- The base class brings in the list of sealers, and says so unless it had it already. -/
theorem baseResetConfig_eq (hr : e.baseResetConfig chain h = some e') :
    ∃ updated last nodeNum f cfgErr, e' = { e with
        sealerList := chain.sortedSealers h, sealerListUpdated := updated,
        lastSealerListUpdateNumber := last, nodeNum := nodeNum, f := f, cfgErr := cfgErr } ∧
      chain.sortedSealers h ≠ [] ∧
      (updated = false → e.sealerList = chain.sortedSealers h ∧
        (e.sealerListUpdated = false ∨ e.lastSealerListUpdateNumber ≠ h)) := by
  simp only [baseResetConfig] at hr
  split at hr
  · cases hr
  · rename_i hlen
    cases hr
    simp only [updateConsensusNodeList] at hlen ⊢
    split
    · rename_i hnew
      rw [if_pos hnew] at hlen
      exact ⟨_, _, _, _, _, rfl, by rintro h0; simp [h0] at hlen, nofun⟩
    · rename_i hsame
      have hlist : e.sealerList = chain.sortedSealers h := (not_not.mp hsame).symm
      rw [if_neg hsame] at hlen
      split
      · rename_i hnum
        rw [if_pos hnum, hlist] at hlen
        exact ⟨_, _, _, _, _, by rw [← hlist], by rintro h0; simp [h0] at hlen,
          fun _ => ⟨hlist, .inr (Ne.symm hnum)⟩⟩
      · rename_i hnum
        rw [if_neg hnum, hlist] at hlen
        exact ⟨e.sealerListUpdated, _, _, _, _, by rw [← hlist],
          by rintro h0; simp [h0] at hlen, fun hu => ⟨hlist, .inl hu⟩⟩

/-! ## One call of `resetConfig` -/

/-- The state of the engine is the closed form at height `h`. -/
structure Settled (chain : Chain I) (h : Nat) (e : Engine I) : Prop where
  placed : e.Placed (chain.sortedSealers h) (chain.epochSize h) (chain.rounds h)
  interval : e.rotatingInterval = chain.epochBlockNum h
  enable : e.rotatingIntervalEnableNumber = chain.enableNumber h
  f : e.f = chain.faults h
  sealers_pos : 0 < chain.sealersNum h
  sealers_le : chain.sealersNum h ≤ 65536

/-- The engines that `resetConfig` is called on at height `h`. -/
inductive Ready (chain : Chain I) (h : Nat) (e : Engine I) : Prop
  | constructed (hsize : e.epochSize = -1) (hinterval : e.rotatingInterval = -1)
      (hupdated : e.sealerListUpdated = true) (hlast : e.lastSealerListUpdateNumber = h)
  | settled {h₀ : Nat} (hle : h₀ ≤ h) (hs : e.Settled chain h₀)

theorem construct_ready (chain : Chain I) (self : I) (sealerList : List I) (h : Nat) :
    (construct self sealerList h).Ready chain h := .constructed rfl rfl rfl rfl

/-- Past the base class and the interval, the engine is where the committee can be brought up to
date: either the closed form's round is there, or the state is the one of an earlier height. -/
theorem Ready.refreshed (hready : e.Ready chain h) (hsteady : e.Steady chain h)
    {updated intervalUpdated : Bool} {round : Int}
    (hlist : updated = false → e.sealerList = chain.sortedSealers h ∧
      (e.sealerListUpdated = false ∨ e.lastSealerListUpdateNumber ≠ h))
    (hkept : intervalUpdated = false → e.rotatingInterval = chain.epochBlockNum h ∧
      e.rotatingIntervalEnableNumber = chain.enableNumber h ∧ round = e.rotatingRound)
    (hnew : intervalUpdated = true → round = chain.rounds h) :
    ∃ r : Nat, round = r ∧
      Due h (chain.enableNumber h) (chain.epochBlockNum h) r (chain.rounds h) ∧
      (updated = false → e.sealersNum = (chain.sortedSealers h).length) ∧
      (e.startNodeIdx = -1 → r = chain.rounds h) ∧ (updated = false → intervalUpdated = false →
        ∃ k, e.Placed (chain.sortedSealers h) k r) := by
  cases hready with
  | constructed _ hinterval hupdated hlast =>
    have hu : updated = true := by
      by_contra hu
      obtain ⟨-, hold | hold⟩ := hlist (Bool.eq_false_iff.mpr hu)
      · simp [hupdated] at hold
      · exact hold hlast
    have hi : intervalUpdated = true := by
      by_contra hi
      have := (hkept (Bool.eq_false_iff.mpr hi)).1
      omega
    exact ⟨_, hnew hi, .inl ⟨rfl, chain.rounds_due h⟩, fun hu' => absurd hu (by simp [hu']),
      fun _ => rfl, fun hu' => absurd hu (by simp [hu'])⟩
  | @settled h₀ hle hs =>
    have hnum : updated = false → e.sealersNum = (chain.sortedSealers h).length := by
      intro hu
      rw [← (hlist hu).1, hs.placed.sealerList]
      exact hs.placed.sealersNum
    have hstart : e.startNodeIdx ≠ -1 := by
      rw [hs.placed.startNodeIdx]
      omega
    cases intervalUpdated with
    | true => exact ⟨_, hnew rfl, .inl ⟨rfl, chain.rounds_due h⟩, hnum, fun _ => rfl, nofun⟩
    | false =>
      obtain ⟨hm, hE, hround⟩ := hkept rfl
      have hm' : chain.epochBlockNum h₀ = chain.epochBlockNum h := by
        exact_mod_cast hs.interval.symm.trans hm
      have hE' : chain.enableNumber h₀ = chain.enableNumber h := by
        exact_mod_cast hs.enable.symm.trans hE
      have hdue := hsteady.1 hm hE
      rw [hs.placed.rotatingRound] at hdue
      refine ⟨_, hround.trans hs.placed.rotatingRound, Chain.rounds_step hle hm' hE' hdue, hnum,
        fun hs' => absurd hs' hstart, fun hu _ => ⟨chain.epochSize h₀, ?_⟩⟩
      rw [← (hlist hu).1, hs.placed.sealerList]
      exact hs.placed

/-! ## Rotation -/

variable [Inhabited I]

section

variable (hp : e.Placed sealers k r)
  (hnodup : sealers.Nodup)
  (hk : 0 < k)
  (hkn : k ≤ sealers.length)
include hp hnodup hk hkn

/-- The committee moves on by one sealer. -/
theorem rotate_placed (hidx : sealers.length ≤ 65536) : e.rotate.Placed sealers k (r + 1) := by
  have hpos : 0 < sealers.length := by omega
  have hout : e.rotatingRound.tmod e.sealersNum = (r % sealers.length : Nat) := by
    rw [hp.rotatingRound, hp.sealersNum]
    rfl
  have hstart : (e.rotatingRound + 1).tmod e.sealersNum
      = ((r + 1) % sealers.length : Nat) := by
    rw [hp.rotatingRound, hp.sealersNum]
    rfl
  have hin : idxType ((((r + 1) % sealers.length : Nat) + min e.epochSize e.sealersNum - 1).tmod
      e.sealersNum) = ((r + k) % sealers.length : Nat) := by
    have hlast : (((r + 1) % sealers.length : Nat) + min (k : Int) sealers.length - 1)
        = ((r + 1) % sealers.length + (k - 1) : Nat) := by omega
    have hmod : ((r + 1) % sealers.length + (k - 1)) % sealers.length
        = (r + k) % sealers.length := by
      rw [Nat.mod_add_mod, show r + 1 + (k - 1) = r + k by omega]
    rw [hp.epochSize, hp.sealersNum, hlast, ← Int.ofNat_tmod, hmod]
    have := Nat.mod_lt (r + k) hpos
    exact Int.emod_eq_of_lt (by omega) (by omega)
  refine ⟨hp.sealerList, hp.sealersNum, hp.epochSize, ?_, hstart, ?_⟩
  · show e.rotatingRound + 1 = _
    rw [hp.rotatingRound]
    rfl
  · simp only [rotate, hout, hstart, hin, hp.chosed]
    obtain rfl := hp.sealerList
    exact window_rotate hnodup hk hkn (getNodeIDByIndex_eq (Nat.mod_lt r hpos))
      (getNodeIDByIndex_eq (Nat.mod_lt (r + k) hpos))

/-- The round that is due is the engine's or the next one. -/
theorem chooseConsensusNodes_placed (hidx : sealers.length ≤ 65536) {m E r' : Nat}
    (hm : e.rotatingInterval = m) (hE : e.rotatingIntervalEnableNumber = E)
    (hdue : Due h E m r r') : (e.chooseConsensusNodes h).Placed sealers k r' := by
  have hset : ¬(e.rotatingInterval = -1 ∨ e.epochSize = -1) := by
    have := hp.epochSize
    omega
  rw [chooseConsensusNodes, if_neg hset]
  simp only [hm, hE, hp.rotatingRound]
  rcases hdue with ⟨rfl, hlt⟩ | ⟨rfl, hge⟩
  · rwa [if_pos hlt]
  · rw [if_neg (not_lt.mpr hge)]
    exact rotate_placed hp hnodup hk hkn hidx

end

theorem chooseConsensusNodes_frame :
    (e.chooseConsensusNodes h).rotatingInterval = e.rotatingInterval ∧
      (e.chooseConsensusNodes h).rotatingIntervalEnableNumber = e.rotatingIntervalEnableNumber ∧
      (e.chooseConsensusNodes h).f = e.f ∧ (e.chooseConsensusNodes h).highest = e.highest := by
  simp only [chooseConsensusNodes]
  split
  · simp
  · split <;> simp [rotate]

/-- **One call.** A steady call of `resetConfig` ends in the closed form of its height. -/
theorem resetConfig_settled (hr : e.resetConfig chain h = some e') (hready : e.Ready chain h)
    (hsteady : e.Steady chain h) : e'.Settled chain h ∧ e'.highest = e.highest := by
  obtain ⟨e₁, hbase, hr⟩ := Option.bind_eq_some_iff.mp hr
  obtain ⟨updated, last, nodeNum, f, cfgErr, rfl, hne, hlist⟩ := baseResetConfig_eq hbase
  obtain ⟨-, hfit, hreg, hidx⟩ := id hsteady
  rw [← chain.sealersNum_eq] at hfit hidx
  obtain ⟨e₂, hchosed, hr⟩ := Option.bind_eq_some_iff.mp hr
  obtain ⟨intervalUpdated, round, hrefresh, hkept, hnew⟩ := refreshInterval_eq (e := { e with
    sealerList := chain.sortedSealers h, sealerListUpdated := updated,
    lastSealerListUpdateNumber := last, nodeNum := nodeNum, f := f, cfgErr := cfgErr }) hreg
  rw [hrefresh] at hchosed
  obtain ⟨r, rfl, hdue, hnum, hfirst, hplaced⟩ := hready.refreshed hsteady hlist hkept hnew
  obtain ⟨hp, hm, hE, hhigh⟩ := resetChosedConsensusNodes_placed hchosed hne rfl hnum rfl
    (fun hs => (roundsSince_eq rfl rfl hreg).trans (congrArg _ (hfirst hs).symm))
    (by show (chain.epochBlockNum h : Int) ≠ -1; omega) hfit
    (fun hu hi => by
      obtain ⟨k, hp⟩ := hplaced hu hi
      exact ⟨k, rfl, hp.sealersNum, hp.epochSize, rfl, hp.startNodeIdx, hp.chosed⟩)
  cases hr
  have hpos : 0 < chain.sealersNum h := length_pos_iff.mpr hne
  have hsize : 0 < chain.epochSize h := lt_min (chain.epochSealerNum_pos h) hpos
  have hf : idxType (min ((e₂.epochSize - 1).tdiv 3) ((e₂.sealersNum - 1).tdiv 3))
      = chain.faults h := by
    rw [hp.epochSize, hp.sealersNum]
    rfl
  have hp' : { e₂ with
      f := idxType (min ((e₂.epochSize - 1).tdiv 3) ((e₂.sealersNum - 1).tdiv 3)) }.Placed
      (chain.sortedSealers h) (chain.epochSize h) r := { hp with }
  have hc := chooseConsensusNodes_placed hp' (chain.sortedSealers_nodup h) hsize
    (min_le_right _ _) hidx hm hE hdue
  obtain ⟨fm, fE, ff, fh⟩ := chooseConsensusNodes_frame (h := h) (e := { e₂ with
    f := idxType (min ((e₂.epochSize - 1).tdiv 3) ((e₂.sealersNum - 1).tdiv 3)) })
  exact ⟨⟨{ hc with }, fm.trans hm, fE.trans hE, ff.trans hf, hpos, hidx⟩, fh.trans hhigh⟩

end Engine

/-! ## Nodes -/

namespace Node

/-- The configuration is reset only where the engine can follow. -/
def Steady (chain : Chain I) (n : Node I) : Event → Prop
  | .commitBlock => True
  | .checkBlock => n.engine.Steady chain n.number
  | .reportNewBlock => n.engine.Steady chain n.number

instance (n : Node I) (ev : Event) : Decidable (n.Steady chain ev) := by
  cases ev <;> unfold Steady <;> infer_instance

variable [Inhabited I]

/-- A node that started at some height, whatever it has seen of the chain since. -/
def History (chain : Chain I) (n : Node I) : Prop :=
  ∃ self sealerList h₀ n₀ events,
    boot chain self sealerList h₀ = some n₀ ∧ Run (Steps (step chain)) n₀ events n

/-- A node that started at some height and has been steady ever since. -/
def SteadyHistory (chain : Chain I) (n : Node I) : Prop :=
  ∃ self sealerList h₀ n₀ events,
    (Engine.construct self sealerList h₀).Steady chain h₀ ∧
      boot chain self sealerList h₀ = some n₀ ∧
      Run (Guarded (Steady chain) (Steps (step chain))) n₀ events n

/-- The engine is settled at a height between its highest block and the head of the chain. -/
def Tracks (chain : Chain I) (n : Node I) : Prop :=
  ∃ h, n.engine.highest ≤ h ∧ h ≤ n.number ∧ n.engine.Settled chain h

variable {n n' : Node I} {ev : Event} {self : I} {sealerList : List I} {h₀ : Nat}

section Evaluation

variable (self sealerList h₀) (events : List Event) {p : Node I → Prop} [DecidablePred p]

theorem exists_history (hexec : ((boot chain self sealerList h₀).bind
    (exec (step chain) · events)).any (p ·) = true) : ∃ n : Node I, n.History chain ∧ p n := by
  obtain ⟨n, hn, hp⟩ := (Option.any_eq_true _ _).mp hexec
  obtain ⟨n₀, hboot, hrun⟩ := Option.bind_eq_some_iff.mp hn
  exact ⟨n, ⟨_, _, _, _, _, hboot, run_of_exec hrun⟩, of_decide_eq_true hp⟩

theorem exists_steadyHistory (hsteady : (Engine.construct self sealerList h₀).Steady chain h₀)
    (hexec : ((boot chain self sealerList h₀).bind
      (exec (guardedStep (Steady chain) (step chain)) · events)).any (p ·) = true) :
    ∃ n : Node I, n.SteadyHistory chain ∧ p n := by
  obtain ⟨n, hn, hp⟩ := (Option.any_eq_true _ _).mp hexec
  obtain ⟨n₀, hboot, hrun⟩ := Option.bind_eq_some_iff.mp hn
  exact ⟨n, ⟨_, _, _, _, _, hsteady, hboot, guardedRun_of_exec hrun⟩, of_decide_eq_true hp⟩

end Evaluation

theorem boot_tracks (hsteady : (Engine.construct self sealerList h₀).Steady chain h₀)
    (hboot : boot chain self sealerList h₀ = some n) : n.Tracks chain := by
  obtain ⟨e, he, rfl⟩ := Option.map_eq_some_iff.mp hboot
  obtain ⟨hs, hhigh⟩ :=
    Engine.resetConfig_settled he (Engine.construct_ready chain self sealerList h₀) hsteady
  exact ⟨h₀, hhigh.trans_le (Nat.zero_le _), le_rfl, hs⟩

/-- **One step.** -/
theorem step_tracks (ht : n.Tracks chain) (hsteady : n.Steady chain ev)
    (hstep : n.step chain ev = some n') : n'.Tracks chain := by
  obtain ⟨h, hlow, hhigh, hs⟩ := ht
  cases ev with
  | commitBlock =>
    cases hstep
    exact ⟨h, hlow, Nat.le_succ_of_le hhigh, hs⟩
  | checkBlock =>
    obtain ⟨e, he, rfl⟩ := Option.map_eq_some_iff.mp hstep
    obtain ⟨hs', hhigh'⟩ := Engine.resetConfig_settled he (.settled hhigh hs) hsteady
    exact ⟨n.number, by show e.highest ≤ _; omega, le_rfl, hs'⟩
  | reportNewBlock =>
    obtain ⟨e, he, rfl⟩ := Option.map_eq_some_iff.mp hstep
    simp only [Engine.reportBlock] at he
    split at he
    · obtain ⟨hs', hhigh'⟩ := Engine.resetConfig_settled he
        (.settled hhigh { hs with placed := { hs.placed with } }) hsteady
      exact ⟨n.number, hhigh'.le, le_rfl, hs'⟩
    · cases he
      exact ⟨h, hlow, hhigh, hs⟩

/-- **Whole histories.** -/
theorem SteadyHistory.tracks (hn : n.SteadyHistory chain) : n.Tracks chain := by
  obtain ⟨self, sealerList, h₀, n₀, events, hsteady, hboot, hrun⟩ := hn
  exact hrun.invariant (fun _ n => n.Tracks chain) (boot_tracks hsteady hboot)
    fun _ _ _ _ ht hstep => step_tracks ht hstep.1 hstep.2

theorem SteadyHistory.settled (hn : n.SteadyHistory chain) (hup : n.UpToDate) :
    n.engine.Settled chain n.number := by
  obtain ⟨h, hlow, hhigh, hs⟩ := hn.tracks
  have : h = n.number := by
    have := hup.symm
    omega
  exact this ▸ hs

end Node

/-! ## Agreement -/

/-- The leader of a view is the member of the committee at its position. -/
theorem Engine.Settled.selectLeader_eq (hs : e.Settled chain h) (view : Nat) :
    e.selectLeader view =
      ((chain.rounds h + (view + e.highest) % chain.epochSize h) % chain.sealersNum h : Nat) := by
  have hlead (j : Nat) : ((chain.rounds h % chain.sealersNum h : Nat) + (j : Int)).tmod
      (chain.sealersNum h) = ((chain.rounds h + j) % chain.sealersNum h : Nat) := by
    rw [← Int.natCast_add, ← Int.ofNat_tmod, Nat.mod_add_mod]
  have hlt := Nat.mod_lt (chain.rounds h + (view + e.highest) % chain.epochSize h) hs.sealers_pos
  have hle := hs.sealers_le
  have hindex : ((view : Int) + e.highest).tmod (chain.epochSize h)
      = ((view + e.highest) % chain.epochSize h : Nat) := rfl
  rw [selectLeader, hs.placed.epochSize, hs.placed.startNodeIdx, hs.placed.sealersNum]
  simp only [hindex]
  exact (congrArg idxType (hlead _)).trans (Int.emod_eq_of_lt (by omega) (by omega))

theorem Engine.Settled.leader_mem (hs : e.Settled chain h) (view : Nat) :
    ∃ leader ∈ e.chosedConsensusNodes,
      e.sealerList[(e.selectLeader view).toNat]? = some leader := by
  have hsize : 0 < chain.epochSize h := lt_min (chain.epochSealerNum_pos h) hs.sealers_pos
  have hlt := Nat.mod_lt (chain.rounds h + (view + e.highest) % chain.epochSize h) hs.sealers_pos
  refine ⟨_, ?_, List.getElem?_eq_getElem (by
    rw [hs.selectLeader_eq, hs.placed.sealerList]
    exact hlt)⟩
  rw [hs.placed.chosed, mem_window]
  refine ⟨_, Nat.mod_lt (view + e.highest) hsize, ?_⟩
  rw [← List.getElem?_eq_getElem, hs.placed.sealerList, hs.selectLeader_eq]
  rfl

/-- **Agreement.** Two nodes whose calls of `resetConfig` have been steady, and which have both
processed the same latest block, have the same committee, fault bound and quorum, and take the
same member of the committee for the leader of a view. -/
theorem committee_agreement [Inhabited I] (chain : Chain I) {a b : Node I}
    (ha : a.SteadyHistory chain) (hb : b.SteadyHistory chain) (hab : a.number = b.number)
    (hupa : a.UpToDate) (hupb : b.UpToDate) :
    a.engine.chosedConsensusNodes = b.engine.chosedConsensusNodes ∧
      a.engine.f = b.engine.f ∧ a.engine.minValidNodes = b.engine.minValidNodes ∧
      (∀ view, a.engine.selectLeader view = b.engine.selectLeader view ∧
        ∃ leader ∈ a.engine.chosedConsensusNodes,
          a.engine.sealerList[(a.engine.selectLeader view).toNat]? = some leader) ∧
      ∀ view faila failb, (a.engine.getLeader view faila).1 = true →
        (b.engine.getLeader view failb).1 = true →
        a.engine.getLeader view faila = b.engine.getLeader view failb := by
  have hsa := ha.settled hupa
  have hsb := hb.settled hupb
  rw [← hab] at hsb
  have hhigh : a.engine.highest = b.engine.highest := hupa.trans (hab.trans hupb.symm)
  have hlead : ∀ view, a.engine.selectLeader view = b.engine.selectLeader view := by
    intro view
    rw [hsa.selectLeader_eq, hsb.selectLeader_eq, hhigh]
  refine ⟨hsa.placed.chosed.trans hsb.placed.chosed.symm, hsa.f.trans hsb.f.symm, ?_,
    fun view => ⟨hlead view, hsa.leader_mem view⟩, ?_⟩
  · rw [Engine.minValidNodes, Engine.minValidNodes, hsa.placed.epochSize, hsb.placed.epochSize,
      hsa.placed.sealersNum, hsb.placed.sealersNum, hsa.f, hsb.f]
  · intro view faila failb hla hlb
    rw [Engine.getLeader_eq hla, Engine.getLeader_eq hlb, hlead view]

/-- Four sealers, two of them in the committee, a rotation every other block. -/
def fourSealers : Chain Nat where
  sealerList _ := [2, 0, 3, 1]
  epochSealerNum _ := 2
  epochBlockNum _ := 2
  enableNumber _ := 0
  nodup _ := by decide
  epochSealerNum_pos _ := by decide
  epochBlockNum_pos _ := by decide
  enableNumber_le _ := Nat.zero_le _

/-- A block is committed and reported. -/
def nextBlock : List Event := [.commitBlock, .reportNewBlock]

/-- One node has followed every block from the start, the other one joins at block 3. -/
theorem fourSealers_agreement :
    ∃ a b : Node Nat, a.SteadyHistory fourSealers ∧ b.SteadyHistory fourSealers ∧
      a.engine.chosedConsensusNodes = {2, 3} ∧
      a.engine.chosedConsensusNodes = b.engine.chosedConsensusNodes ∧
      a.engine.minValidNodes = b.engine.minValidNodes ∧
      a.engine.selectLeader 1 = b.engine.selectLeader 1 := by
  obtain ⟨a, hista, hna, hha, hca⟩ : ∃ a : Node Nat, a.SteadyHistory fourSealers ∧ a.number = 4 ∧
      a.engine.highest = 4 ∧ a.engine.chosedConsensusNodes = {2, 3} :=
    exists_steadyHistory 0 [] 0 (nextBlock ++ nextBlock ++ nextBlock ++ nextBlock)
      (by decide +kernel) (by decide +kernel)
  obtain ⟨b, histb, hnb, hhb⟩ : ∃ b : Node Nat, b.SteadyHistory fourSealers ∧ b.number = 4 ∧
      b.engine.highest = 4 :=
    exists_steadyHistory 1 [] 3 (.reportNewBlock :: nextBlock) (by decide +kernel)
      (by decide +kernel)
  obtain ⟨hc, -, hq, hl, -⟩ := committee_agreement fourSealers hista histb
    (hna.trans hnb.symm) (hha.trans hna.symm) (hhb.trans hnb.symm)
  exact ⟨a, b, hista, histb, hca, hc, hq, (hl 1).1⟩

/-- Sealer 3 leaves in block 1, the configured size of the committee is four throughout. -/
def leavingSealer : Chain Nat where
  sealerList h := if h = 0 then [0, 1, 2, 3] else [0, 1, 2]
  epochSealerNum _ := 4
  epochBlockNum _ := 10
  enableNumber _ := 0
  nodup h := by split <;> decide
  epochSealerNum_pos _ := by decide
  epochBlockNum_pos _ := by decide
  enableNumber_le _ := Nat.zero_le _

/-- A node that has been told of block 4 only has made one rotation instead of two, and a node
that has seen a sealer leave counts views modulo a size that a node started since has cut down. -/
theorem committees_diverge :
    (∃ a b : Node Nat, a.History fourSealers ∧ b.History fourSealers ∧ a.number = b.number ∧
        a.UpToDate ∧ b.UpToDate ∧
        a.engine.chosedConsensusNodes = {2, 3} ∧ b.engine.chosedConsensusNodes = {1, 2}) ∧
      ∃ a b : Node Nat, a.History leavingSealer ∧ b.History leavingSealer ∧ a.number = b.number ∧
        a.UpToDate ∧ b.UpToDate ∧
        a.engine.selectLeader 3 = 0 ∧ b.engine.selectLeader 3 = 1 := by
  constructor
  · obtain ⟨a, hista, hna, hha, hca⟩ : ∃ a : Node Nat, a.History fourSealers ∧ a.number = 4 ∧
        a.engine.highest = a.number ∧ a.engine.chosedConsensusNodes = {2, 3} :=
      exists_history 0 [] 0 (nextBlock ++ nextBlock ++ nextBlock ++ nextBlock) (by decide +kernel)
    obtain ⟨b, histb, hnb, hhb, hcb⟩ : ∃ b : Node Nat, b.History fourSealers ∧ b.number = 4 ∧
        b.engine.highest = b.number ∧ b.engine.chosedConsensusNodes = {1, 2} :=
      exists_history 1 [] 0 ([.commitBlock, .commitBlock, .commitBlock] ++ nextBlock)
        (by decide +kernel)
    exact ⟨a, b, hista, histb, hna.trans hnb.symm, hha, hhb, hca, hcb⟩
  · obtain ⟨a, hista, hna, hha, hla⟩ : ∃ a : Node Nat, a.History leavingSealer ∧ a.number = 1 ∧
        a.engine.highest = a.number ∧ a.engine.selectLeader 3 = 0 :=
      exists_history 0 [] 0 nextBlock (by decide +kernel)
    obtain ⟨b, histb, hnb, hhb, hlb⟩ : ∃ b : Node Nat, b.History leavingSealer ∧ b.number = 1 ∧
        b.engine.highest = b.number ∧ b.engine.selectLeader 3 = 1 :=
      exists_history 1 [] 1 [.reportNewBlock] (by decide +kernel)
    exact ⟨a, b, hista, histb, hna.trans hnb.symm, hha, hhb, hla, hlb⟩

end Rcc.Rpbft
