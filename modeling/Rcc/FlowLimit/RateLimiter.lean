import Mathlib.Tactic

/-!
# Rcc.FlowLimit.RateLimiter

`RateLimiter` (`libflowlimit`): permits are stored up to `m_maxPermits` as time goes by, and up to
`m_maxQPS` of them may be taken in advance, which moves `m_lastPermitsUpdateTime` to the future.

A request for fewer permits than are stored is served at once and does not look at the time. So
the permits that came in since the last update are still to be added when the stored ones have been
used up, and a burst may take the store twice.

* `updatePermits_spec`, `tryAcquire_cases` — what a call does;
* `spent_le`, `burst_le` — the potential `stored * interval - lastUpdate` pays for every grant;
* `granted_in_window_le` — the bound for a window, with the store counted twice.

The doubles of the source hold integers if `m_maxQPS` divides a million, and are integers here.
-/

namespace Rcc.FlowLimit

structure RateLimiter where
  maxQPS : Int
  currentStoredPermits : Int := 0
  permitsUpdateInterval : Int
  lastPermitsUpdateTime : Int
  maxPermits : Int
  deriving DecidableEq

namespace RateLimiter

/-- The constructor. -/
def create (maxQPS now : Int) : RateLimiter where
  maxQPS
  permitsUpdateInterval := 1000000 / maxQPS
  lastPermitsUpdateTime := now
  maxPermits := maxQPS

variable (l : RateLimiter)

def setMaxPermitsSize (maxPermitsSize : Int) : RateLimiter :=
  { l with maxPermits := maxPermitsSize }

def updatePermits (now : Int) : RateLimiter :=
  if now ≤ l.lastPermitsUpdateTime then l
  else
    let increasedPermits := (now - l.lastPermitsUpdateTime) / l.permitsUpdateInterval
    let stored := min l.maxPermits (l.currentStoredPermits + increasedPermits)
    { l with
      currentStoredPermits := stored
      lastPermitsUpdateTime :=
        if stored = l.maxPermits then now
        else l.lastPermitsUpdateTime + increasedPermits * l.permitsUpdateInterval }

variable (requiredPermits : Int)

def updateCurrentStoredPermits : RateLimiter :=
  if requiredPermits > l.currentStoredPermits then
    let waitTime := (requiredPermits - l.currentStoredPermits) * l.permitsUpdateInterval
    { l with
      currentStoredPermits := 0
      lastPermitsUpdateTime :=
        if waitTime > 0 then l.lastPermitsUpdateTime + waitTime else l.lastPermitsUpdateTime }
  else { l with currentStoredPermits := l.currentStoredPermits - requiredPermits }

/-- The time to wait, and the limiter after the call. -/
def fetchPermitsAndGetWaitTime (fetchPermitsWhenRequireWait : Bool) (now : Int) :
    Int × RateLimiter :=
  if l.currentStoredPermits > requiredPermits then
    (0, { l with currentStoredPermits := l.currentStoredPermits - requiredPermits })
  else
    let l := l.updatePermits now
    let waitAvailableTime := l.lastPermitsUpdateTime - now
    if !fetchPermitsWhenRequireWait ∧ waitAvailableTime > 0 then (waitAvailableTime, l)
    else if !fetchPermitsWhenRequireWait ∧
        requiredPermits - l.currentStoredPermits ≥ l.maxQPS then (1, l)
    else if (waitAvailableTime > 0 ∨ requiredPermits - l.currentStoredPermits ≥ l.maxQPS) ∧
        !fetchPermitsWhenRequireWait then (waitAvailableTime, l)
    else (max waitAvailableTime 0, l.updateCurrentStoredPermits requiredPermits)

def acquire (fetchPermitsWhenRequireWait : Bool) (now : Int) : Int × RateLimiter :=
  l.fetchPermitsAndGetWaitTime requiredPermits fetchPermitsWhenRequireWait now

/-- The permits are a `uint64_t` here and an `int64_t` in `acquire`. -/
def tryAcquire (requiredPermits : UInt64) (now : Int) : Bool × RateLimiter :=
  let (waitTime, l) := l.acquire requiredPermits.toInt64.toInt false now
  (waitTime = 0, l)

end RateLimiter

/-! ## Calls one at a time -/

/-- A call of `tryAcquire`. -/
structure Call where
  requiredPermits : UInt64
  now : Int
  deriving DecidableEq

namespace RateLimiter

/-- The limiter after the calls. -/
def after : RateLimiter → List Call → RateLimiter
  | l, [] => l
  | l, c :: cs => after (l.tryAcquire c.requiredPermits c.now).2 cs

/-- The permits granted to the calls in a window of time. -/
def grantedIn (first last : Int) : RateLimiter → List Call → Nat
  | _, [] => 0
  | l, c :: cs =>
    (if first ≤ c.now ∧ c.now ≤ last ∧ (l.tryAcquire c.requiredPermits c.now).1 then
      c.requiredPermits.toNat else 0) +
      grantedIn first last (l.tryAcquire c.requiredPermits c.now).2 cs

/-! ## The store and the debt -/

/-- What calls up to the time `now` leave. -/
structure Inv (now : Int) (l : RateLimiter) : Prop where
  interval : 0 < l.permitsUpdateInterval
  qps : 0 < l.maxQPS
  stored_nonneg : 0 ≤ l.currentStoredPermits
  stored_le : l.currentStoredPermits ≤ l.maxPermits
  /-- at most `maxQPS` permits are taken in advance -/
  advance_le : l.lastPermitsUpdateTime ≤ now + (l.maxQPS - 1) * l.permitsUpdateInterval

/-- What a limiter keeps for ever. -/
structure Same (l l' : RateLimiter) : Prop where
  qps : l'.maxQPS = l.maxQPS
  interval : l'.permitsUpdateInterval = l.permitsUpdateInterval
  permits : l'.maxPermits = l.maxPermits

/-- The stored permits, as the time they take to come in, less the time they are from. -/
def potential (l : RateLimiter) : Int :=
  l.currentStoredPermits * l.permitsUpdateInterval - l.lastPermitsUpdateTime

variable {l : RateLimiter} {t now : Int}

theorem Inv.mono (h : l.Inv t) (ht : t ≤ now) : l.Inv now :=
  { h with advance_le := h.advance_le.trans (by gcongr) }

theorem Inv.advance_nonneg (h : l.Inv t) : 0 ≤ (l.maxQPS - 1) * l.permitsUpdateInterval :=
  mul_nonneg (Int.sub_nonneg_of_le h.qps) h.interval.le

theorem Inv.stored_time_nonneg (h : l.Inv t) :
    0 ≤ l.currentStoredPermits * l.permitsUpdateInterval := mul_nonneg h.stored_nonneg h.interval.le

theorem Inv.stored_time_le (h : l.Inv t) :
    l.currentStoredPermits * l.permitsUpdateInterval ≤ l.maxPermits * l.permitsUpdateInterval :=
  mul_le_mul_of_nonneg_right h.stored_le h.interval.le

/-- `updatePermits` leaves no more than a full store at the present time. -/
theorem updatePermits_spec (h : l.Inv t) (ht : t ≤ now) :
    (l.updatePermits now).Inv now ∧ Same l (l.updatePermits now) ∧
      (l.updatePermits now).potential ≤ l.potential ∧
      (l.updatePermits now).potential ≤ l.maxPermits * l.permitsUpdateInterval - now := by
  have hI := h.interval
  have hstored := h.stored_time_le
  rw [updatePermits]
  split_ifs with hlate
  · exact ⟨h.mono ht, ⟨rfl, rfl, rfl⟩, le_rfl, by rw [potential]; omega⟩
  · generalize hinc : (now - l.lastPermitsUpdateTime) / l.permitsUpdateInterval = increased
    have hinc_nonneg : 0 ≤ increased := hinc ▸ Int.ediv_nonneg (by omega) hI.le
    have hinc_le : increased * l.permitsUpdateInterval ≤ now - l.lastPermitsUpdateTime :=
      hinc ▸ Int.ediv_mul_le _ hI.ne'
    have hinc_lt : now - l.lastPermitsUpdateTime < (increased + 1) * l.permitsUpdateInterval :=
      hinc ▸ Int.lt_ediv_add_one_mul_self _ hI
    rw [add_one_mul] at hinc_lt
    have hadvance := h.advance_nonneg
    have hnonneg := h.stored_nonneg
    have hle := h.stored_le
    simp only [potential]
    by_cases hfull : l.maxPermits ≤ l.currentStoredPermits + increased
    · -- the store is full, and the time is the present one
      rw [min_eq_left hfull, if_pos rfl]
      have hmul := mul_le_mul_of_nonneg_right hfull hI.le
      rw [add_mul] at hmul
      have hpositive : 0 ≤ l.maxPermits := by omega
      have hpresent : now ≤ now + (l.maxQPS - 1) * l.permitsUpdateInterval := by omega
      exact ⟨⟨hI, h.qps, hpositive, le_rfl, hpresent⟩, ⟨rfl, rfl, rfl⟩, by omega, le_rfl⟩
    · rw [min_eq_right (by omega), if_neg (by omega), add_mul]
      have hmul := mul_le_mul_of_nonneg_right
        (show l.currentStoredPermits + increased + 1 ≤ l.maxPermits by omega) hI.le
      rw [add_one_mul, add_mul] at hmul
      have hpositive : 0 ≤ l.currentStoredPermits + increased := by omega
      have hroom : l.currentStoredPermits + increased ≤ l.maxPermits := by omega
      have hpresent : l.lastPermitsUpdateTime + increased * l.permitsUpdateInterval ≤
          now + (l.maxQPS - 1) * l.permitsUpdateInterval := by omega
      exact ⟨⟨hI, h.qps, hpositive, hroom, hpresent⟩, ⟨rfl, rfl, rfl⟩, by omega, by omega⟩

/-- Spent permits are paid for by the potential, those taken in advance as well. -/
theorem updateCurrentStoredPermits_spec (h : l.Inv now) {requiredPermits : Int}
    (hnonneg : 0 ≤ requiredPermits) (hnow : l.lastPermitsUpdateTime ≤ now)
    (hadvance : requiredPermits - l.currentStoredPermits < l.maxQPS) :
    (l.updateCurrentStoredPermits requiredPermits).Inv now ∧
      Same l (l.updateCurrentStoredPermits requiredPermits) ∧
      (l.updateCurrentStoredPermits requiredPermits).potential +
        requiredPermits * l.permitsUpdateInterval = l.potential := by
  have hI := h.interval
  have hstored := h.stored_le
  have hstored_nonneg := h.stored_nonneg
  rw [updateCurrentStoredPermits]
  split_ifs with hmore
  · have hwait : (requiredPermits - l.currentStoredPermits) * l.permitsUpdateInterval > 0 :=
      mul_pos (by omega) hI
    have hle : (requiredPermits - l.currentStoredPermits) * l.permitsUpdateInterval ≤
        (l.maxQPS - 1) * l.permitsUpdateInterval := mul_le_mul_of_nonneg_right (by omega) hI.le
    simp only [if_pos hwait, potential]
    refine ⟨⟨hI, h.qps, le_rfl, by simp only; omega, by simp only; omega⟩, ⟨rfl, rfl, rfl⟩, ?_⟩
    ring
  · refine ⟨⟨hI, h.qps, ?_, ?_, h.advance_le⟩, ⟨rfl, rfl, rfl⟩, ?_⟩
    · simp only
      omega
    · simp only
      omega
    · simp only [potential]
      ring

theorem toInt64_toInt {n : UInt64} (h : n.toNat < 2 ^ 63) : n.toInt64.toInt = n.toNat := by
  have hbits : 2 * n.toBitVec.toNat < 2 ^ 64 := by
    rw [UInt64.toNat_toBitVec]
    omega
  exact BitVec.toInt_eq_toNat_of_lt hbits

/-- The three ways a call may go. -/
theorem tryAcquire_cases {n : UInt64} (h : n.toNat < 2 ^ 63) (l : RateLimiter) (now : Int) :
    (n.toNat < l.currentStoredPermits ∧ l.tryAcquire n now =
      (true, { l with currentStoredPermits := l.currentStoredPermits - n.toNat })) ∨
    l.tryAcquire n now = (false, l.updatePermits now) ∨
    ((l.updatePermits now).lastPermitsUpdateTime ≤ now ∧
      n.toNat - (l.updatePermits now).currentStoredPermits < (l.updatePermits now).maxQPS ∧
      l.tryAcquire n now = (true, (l.updatePermits now).updateCurrentStoredPermits n.toNat)) := by
  rw [tryAcquire, acquire, fetchPermitsAndGetWaitTime, toInt64_toInt h]
  by_cases hfast : l.currentStoredPermits > n.toNat
  · rw [if_pos hfast]
    exact .inl ⟨hfast, rfl⟩
  · rw [if_neg hfast]
    simp only [Bool.not_false, true_and, and_true]
    by_cases hwait : (l.updatePermits now).lastPermitsUpdateTime - now > 0
    · rw [if_pos hwait]
      exact .inr (.inl (Prod.ext (decide_eq_false hwait.ne') rfl))
    · rw [if_neg hwait]
      by_cases hadvance : (n.toNat : Int) - (l.updatePermits now).currentStoredPermits ≥
          (l.updatePermits now).maxQPS
      · rw [if_pos hadvance]
        exact .inr (.inl rfl)
      · rw [if_neg hadvance, if_neg (not_or.mpr ⟨hwait, hadvance⟩), max_eq_right (not_lt.mp hwait)]
        exact .inr (.inr ⟨by omega, not_le.mp hadvance, rfl⟩)

/-- The permits a call is granted. -/
def granted (l : RateLimiter) (c : Call) : Nat :=
  if (l.tryAcquire c.requiredPermits c.now).1 then c.requiredPermits.toNat else 0

/-- The step lemma: a grant is paid for by the potential, and comes from the store as it is or
from one that is not more than full at the time of the call. -/
theorem tryAcquire_spec (h : l.Inv t) {c : Call} (hc : t ≤ c.now)
    (hrequired : c.requiredPermits.toNat < 2 ^ 63) :
    let l' := (l.tryAcquire c.requiredPermits c.now).2
    l'.Inv c.now ∧ Same l l' ∧
      l'.potential + l.granted c * l.permitsUpdateInterval ≤ l.potential ∧
      (l'.currentStoredPermits + l.granted c = l.currentStoredPermits ∨
        l'.potential + l.granted c * l.permitsUpdateInterval ≤
          l.maxPermits * l.permitsUpdateInterval - c.now) := by
  obtain ⟨hinv, hsame, hle, hfull⟩ := updatePermits_spec h hc
  rw [granted]
  rcases tryAcquire_cases hrequired l c.now with
    ⟨hfast, hcall⟩ | hcall | ⟨hnow, hadvance, hcall⟩ <;> rw [hcall]
  · have hstored := h.stored_le
    refine ⟨{ h.mono hc with stored_nonneg := ?_, stored_le := ?_ }, ⟨rfl, rfl, rfl⟩, ?_, .inl ?_⟩
    · simp only
      omega
    · simp only
      omega
    · simp only [potential, if_true]
      rw [sub_mul]
      omega
    · simp only [if_true]
      omega
  · refine ⟨hinv, hsame, ?_, .inr ?_⟩ <;> simpa using ‹_›
  · obtain ⟨hinv', hsame', hspent⟩ :=
      updateCurrentStoredPermits_spec hinv (Int.natCast_nonneg _) hnow hadvance
    rw [hsame.interval] at hspent
    exact ⟨hinv', ⟨hsame'.qps.trans hsame.qps, hsame'.interval.trans hsame.interval,
      hsame'.permits.trans hsame.permits⟩, hspent.trans_le hle, .inr (hspent.trans_le hfull)⟩

/-! ## Windows -/

/-- Calls one after the other from the time `t` on, for permits that an `int64_t` can hold. -/
def Sequential : Int → List Call → Prop
  | _, [] => True
  | t, c :: cs => t ≤ c.now ∧ c.requiredPermits.toNat < 2 ^ 63 ∧ Sequential c.now cs

variable {first last : Int} {cs : List Call}

theorem grantedIn_cons (first last : Int) (l : RateLimiter) (c : Call) (cs : List Call) :
    grantedIn first last l (c :: cs) = (if first ≤ c.now ∧ c.now ≤ last then l.granted c else 0) +
      grantedIn first last (l.tryAcquire c.requiredPermits c.now).2 cs := by
  rw [grantedIn, granted]
  by_cases hwindow : first ≤ c.now ∧ c.now ≤ last
  · simp [hwindow]
  · rw [if_neg hwindow, if_neg fun h => hwindow ⟨h.1, h.2.1⟩]

theorem grantedIn_of_lt (h : last < t) (hcs : Sequential t cs) : grantedIn first last l cs = 0 := by
  induction cs generalizing l t with
  | nil => rfl
  | cons c cs ih =>
    have hnow := h.trans_le hcs.1
    rw [grantedIn_cons, ih hnow hcs.2.2, if_neg fun hc => hc.2.not_gt hnow]

/-- From a time on, what is granted is paid for by the potential at that time. -/
theorem spent_le (first last : Int) (h : l.Inv t) (hcs : Sequential t cs)
    (hlast : l.lastPermitsUpdateTime ≤ last + (l.maxQPS - 1) * l.permitsUpdateInterval) :
    grantedIn first last l cs * l.permitsUpdateInterval ≤
      l.potential + last + (l.maxQPS - 1) * l.permitsUpdateInterval := by
  have hstored := h.stored_time_nonneg
  induction cs generalizing l t with
  | nil =>
    rw [grantedIn, potential]
    omega
  | cons c cs ih =>
    obtain ⟨hc, hrequired, hcs⟩ := hcs
    obtain ⟨hinv, hsame, hpaid, -⟩ := tryAcquire_spec h hc hrequired
    rw [grantedIn_cons]
    by_cases hover : last < c.now
    · rw [grantedIn_of_lt hover hcs, if_neg fun hwindow => hwindow.2.not_gt hover, potential]
      omega
    · have hadvance := hinv.advance_le
      have hrest := ih hinv hcs (by omega) hinv.stored_time_nonneg
      rw [hsame.qps, hsame.interval] at hrest
      have hnonneg : 0 ≤ l.granted c * l.permitsUpdateInterval :=
        mul_nonneg (Int.natCast_nonneg _) h.interval.le
      push_cast
      rw [add_mul]
      split <;> omega

/-- From the first call of a window on, the store may be used as it is and then filled again. -/
theorem burst_le (cs : List Call) (h : l.Inv t) (hcs : Sequential t cs) (hfirst : first ≤ t)
    (hwindow : first ≤ last) :
    grantedIn first last l cs * l.permitsUpdateInterval ≤
      (l.currentStoredPermits + l.maxPermits) * l.permitsUpdateInterval + (last - first) +
        (l.maxQPS - 1) * l.permitsUpdateInterval := by
  induction cs generalizing l t with
  | nil =>
    have hadvance := h.advance_nonneg
    have hnonneg := h.stored_time_nonneg
    have hle := h.stored_time_le
    rw [grantedIn, add_mul]
    omega
  | cons c cs ih =>
    have hadvance := h.advance_nonneg
    have hnonneg := h.stored_time_nonneg
    have hle := h.stored_time_le
    obtain ⟨hc, hrequired, hcs⟩ := hcs
    obtain ⟨hinv, hsame, -, hstore⟩ := tryAcquire_spec h hc hrequired
    rw [grantedIn_cons]
    by_cases hover : last < c.now
    · rw [grantedIn_of_lt hover hcs, if_neg fun hwindow => hwindow.2.not_gt hover, add_mul]
      omega
    · rw [if_pos ⟨by omega, by omega⟩]
      push_cast
      rw [add_mul]
      rcases hstore with hfast | hslow
      · have hrest := ih hinv hcs (by omega)
        rw [hsame.qps, hsame.interval, hsame.permits] at hrest
        rw [← hfast]
        linarith
      · -- from here on the potential pays
        have hlast := hinv.advance_le
        have hrest := spent_le first last hinv hcs (by omega)
        rw [hsame.qps, hsame.interval] at hrest
        rw [add_mul]
        omega

theorem window_le (h : l.Inv t) (hcs : Sequential t cs) (hwindow : first ≤ last) :
    grantedIn first last l cs * l.permitsUpdateInterval ≤
      2 * l.maxPermits * l.permitsUpdateInterval + (last - first) +
        (l.maxQPS - 1) * l.permitsUpdateInterval := by
  induction cs generalizing l t with
  | nil =>
    have hadvance := h.advance_nonneg
    have hfull := h.stored_time_nonneg.trans h.stored_time_le
    rw [grantedIn, mul_assoc]
    omega
  | cons c cs ih =>
    by_cases hfirst : first ≤ c.now
    · have hburst := burst_le (c :: cs) (h.mono hcs.1) ⟨le_rfl, hcs.2⟩ hfirst hwindow
      have hstored := h.stored_time_le
      rw [add_mul] at hburst
      rw [mul_assoc]
      omega
    · obtain ⟨hc, hrequired, hcs⟩ := hcs
      obtain ⟨hinv, hsame, -⟩ := tryAcquire_spec h hc hrequired
      have hrest := ih hinv hcs
      rw [hsame.qps, hsame.interval, hsame.permits] at hrest
      rwa [grantedIn_cons, if_neg fun hc => hfirst hc.1, Nat.zero_add]

/-- The run lemma. -/
theorem after_inv (h : l.Inv t) (hcs : Sequential t cs) :
    Same l (l.after cs) ∧ (l.after cs).currentStoredPermits ≤ l.maxPermits := by
  induction cs generalizing l t with
  | nil => exact ⟨⟨rfl, rfl, rfl⟩, h.stored_le⟩
  | cons c cs ih =>
    obtain ⟨hinv, hsame, -⟩ := tryAcquire_spec h hcs.1 hcs.2.1
    obtain ⟨hsame', hstored⟩ := ih hinv hcs.2.2
    exact ⟨⟨hsame'.qps.trans hsame.qps, hsame'.interval.trans hsame.interval,
      hsame'.permits.trans hsame.permits⟩, hstored.trans_eq hsame.permits⟩

/-- In a window of `T` microseconds a limiter grants its store twice, the advance, and what comes
in; and it never stores more than it may. -/
theorem granted_in_window_le {maxQPS maxPermits created T : Int} (hqps : 0 < maxQPS)
    (hdvd : maxQPS ∣ 1000000) (hpermits : 0 ≤ maxPermits) {calls : List Call}
    (hcalls : Sequential created calls) (hT : 0 ≤ T) (first : Int) :
    let l := (create maxQPS created).setMaxPermitsSize maxPermits
    (l.grantedIn first (first + T) calls : Int) ≤
        2 * maxPermits + maxQPS + T * maxQPS / 1000000 ∧
      (l.after calls).currentStoredPermits ≤ maxPermits := by
  intro l
  obtain ⟨interval, hinterval⟩ := hdvd
  have hdiv : 1000000 / maxQPS = interval := Int.ediv_eq_of_eq_mul_right hqps.ne' hinterval
  have hpos : 0 < interval := by
    refine pos_of_mul_pos_right (a := maxQPS) ?_ hqps.le
    rw [← hinterval]
    decide
  have hl : l.permitsUpdateInterval = interval := hdiv
  have hinv : l.Inv created := by
    refine ⟨hl ▸ hpos, hqps, le_rfl, hpermits, ?_⟩
    rw [hl]
    exact Int.le_add_of_nonneg_right (mul_nonneg (Int.sub_nonneg_of_le hqps) hpos.le)
  refine ⟨?_, (after_inv hinv hcalls).2⟩
  have hwindow := window_le hinv hcalls (Int.le_add_of_nonneg_right (a := first) hT)
  rw [hl] at hwindow
  -- both sides times `maxQPS`
  generalize (l.grantedIn first (first + T) calls : Int) = granted at hwindow
  have hover : (granted - (2 * maxPermits + maxQPS)) * interval ≤ T := by
    have hpermits : l.maxPermits = maxPermits := rfl
    have hmax : l.maxQPS = maxQPS := rfl
    rw [hpermits, hmax] at hwindow
    linarith
  have hmul := mul_le_mul_of_nonneg_right hover hqps.le
  rw [mul_assoc, mul_comm interval, ← hinterval] at hmul
  omega

theorem steady_calls_bounded :
    let l := (create 10 0).setMaxPermitsSize 10
    let calls := [⟨0, 100000000⟩, ⟨9, 100000000⟩, ⟨4, 100000500⟩]
    (l.grantedIn 100000000 100000500 calls = 13 ∧
      (l.grantedIn 100000000 (100000000 + 500) calls : Int) ≤ 2 * 10 + 10 + 500 * 10 / 1000000) :=
  ⟨by decide +kernel, (granted_in_window_le (by decide) (by decide) (by decide)
    (by simp [Sequential]) (by decide) 100000000).1⟩

/-- With ten permits in a second and ten stored, twenty-eight are granted at one moment: the store,
what came in since it was filled, and the advance. And permits that do not fit an `int64_t` are
added to the store. -/
theorem store_used_twice :
    let l := (create 10 0).setMaxPermitsSize 10
    l.grantedIn 200000000 200000000 [⟨0, 100000000⟩, ⟨9, 200000000⟩, ⟨1, 200000000⟩,
        ⟨8, 200000000⟩, ⟨10, 200000000⟩] = 28 ∧
      (l.after [⟨18446744073709551595, 0⟩]).currentStoredPermits = 21 := by
  decide +kernel

end RateLimiter

end Rcc.FlowLimit
