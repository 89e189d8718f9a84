import Rcc.Pbft.Engine4nl
import Rcc.Pbft.Symbolic
import Rcc.Pbft.ViewChangeCache

/-!
# Rcc.Pbft.ViewChange

The view-change protocol of `PBFTEngine`: requests of other sealers, timeouts, reported blocks
and garbage collection, under a fixed sealer list.

A node is in `view` and asks for `toView`. It changes to a view when a quorum of requests for it
is cached, follows others to a higher `toView` when more than `m_f` of them ask for one, and
starts again from view 0 on every new block. `Raised` records the requests on whose strength a
view was entered.

**Soundness** (`view_change_sound`): `toView` never falls behind `view`, the pair of consensus
height and view never decreases, and every view is entered with verified requests of a quorum
(less the node itself). All of it rests on `toView + 1` being larger than `toView`, and the
increment of a 64-bit counter is not when the counter is at its maximum. A single request for the
view `INT64_MAX` brings a node of a small group there (`toView_wraps`).
-/

namespace Rcc.Pbft

open List ViewChangeCache Int64

variable {H Id Sg : Type}

/-- The state of the view-change protocol. -/
structure ViewEngine (H Id Sg : Type) where
  sealerList : List Id
  keyPair : Id
  noId : Id
  highest : Highest H
  consensusBlockNumber : Int64
  view : Int64
  toView : Int64
  reqCache : ViewChangeCache H Sg

/-- What the environment decides while one event is handled: the number of the block chain,
whether it has the block of the request's height, the height of the committed prepare cache, the
clock, whether the timer has run out and whether the broadcast succeeds. -/
structure ViewEnv where
  chainNumber : Int64
  hasBlock : Bool
  committedHeight : Int64
  utcTime : Nat
  isTimeout : Bool
  broadcastOk : Bool
deriving DecidableEq

/-- A view change: the view entered and the requests cached for it. -/
structure Raised (H Sg : Type) where
  view : Int64
  requests : List (Nat × ViewChangeReq H Sg)

inductive ViewEvent (H Sg : Type) where
  /-- A `ViewChangeReqPacket` from the peer with index `source`. -/
  | viewChange (req : ViewChangeReq H Sg) (source : Nat) (env : ViewEnv)
  | checkTimeout (env : ViewEnv)
  | reportBlock (block : Highest H) (env : ViewEnv)
  | collectGarbage

namespace ViewEngine

/-- The engine before the first block is reported. -/
def init (sealerList : List Id) (keyPair noId : Id) (hash : H) : ViewEngine H Id Sg where
  sealerList := sealerList
  keyPair := keyPair
  noId := noId
  highest := ⟨0, hash⟩
  consensusBlockNumber := 0
  view := 0
  toView := 0
  reqCache := ∅

/-! ### Fast view change -/

/-- The variables of the loop in `canTriggerViewChange`. -/
structure TriggerScan where
  idxView : UnorderedMap Nat Int64
  minView : Int64
  minHeight : Int64

/-- One request of view `v`. A request counts unless a higher view of its index was met before,
so that the result depends on the iteration order. -/
def scanRequest (highestNumber v : Int64) (scan : TriggerScan) (entry : Nat × ViewChangeReq H Sg) :
    TriggerScan :=
  if (scan.idxView.find? entry.1).all (· < v) && highestNumber ≤ entry.2.height then
    { idxView := scan.idxView.set entry.1 v
      minView := if v < scan.minView then v else scan.minView
      minHeight := if entry.2.height < scan.minHeight then entry.2.height else scan.minHeight }
  else scan

/-- The requests of one view. -/
def scanView (toView highestNumber : Int64) (scan : TriggerScan)
    (item : Int64 × UnorderedMap Nat (ViewChangeReq H Sg)) : TriggerScan :=
  if toView < item.1 then item.2.nodes.foldl (scanRequest highestNumber item.1) scan else scan

/-- `canTriggerViewChange`: the lowest view found, if enough indices ask for one above
`toView`. -/
def canTriggerViewChange (committedHeight : Int64) (e : ViewEngine H Id Sg) : Option Int64 :=
  let scan := e.reqCache.recvViewChangeReq.nodes.foldl (scanView e.toView e.highest.number)
    ⟨∅, maxValue, maxValue⟩
  let flag := scan.minHeight = e.consensusBlockNumber && scan.minHeight = committedHeight
  if Quorum.maxFaulty (nodeNum e.sealerList) < toIdx scan.idxView.size && !flag then
    some scan.minView
  else none

/-! ### Handlers -/

variable [DecidableEq H] [DecidableEq Id] [DecidableEq Sg]

/-- `nodeIdx()`. -/
def nodeIdx (e : ViewEngine H Id Sg) : Nat := indexOfSealer e.sealerList e.keyPair

variable (c : Crypto H Id Sg)

/-- `checkSign(req)`. -/
def checkSign (req : ViewChangeReq H Sg) (e : ViewEngine H Id Sg) : Bool :=
  let nodeId := getSealerByIndex e.noId e.sealerList req.idx
  nodeId ≠ e.noId && req.toMsg.signedBy c nodeId

/-- `catchupView`: a node that lags behind is answered, and its latest request forgotten. -/
def catchupView (req : ViewChangeReq H Sg) (e : ViewEngine H Id Sg) : ViewEngine H Id Sg :=
  if req.view + 1 < e.toView ∧ getSealerByIndex e.noId e.sealerList req.idx ≠ e.noId then
    { e with reqCache := e.reqCache.eraseLatest req.idx }
  else e

variable (env : ViewEnv)

/-- `isValidViewChangeReq`, which may catch up the sender on the way. -/
def isValidViewChangeReq (req : ViewChangeReq H Sg)
    (source : Nat) (e : ViewEngine H Id Sg) : Bool × ViewEngine H Id Sg :=
  if e.reqCache.isExistViewChange req then (false, e)
  else if req.idx = e.nodeIdx then (false, e)
  else if req.height < e.highest.number then (false, e)
  else
    let e := if req.view + 1 < e.toView ∧ req.idx = source then e.catchupView req else e
    (e.view < req.view &&
      !(req.height = e.highest.number && req.blockHash ≠ e.highest.hash) && env.hasBlock &&
      e.checkSign c req, e)

/-- `checkAndChangeView`: with a quorum of requests the node enters the view, and forgets the
requests for it and for all views below. -/
def checkAndChangeView (v : Int64) (e : ViewEngine H Id Sg) :
    ViewEngine H Id Sg × List (Raised H Sg) :=
  if minValidNodes e.sealerList ≤ toIdx (e.reqCache.getViewChangeSize v) then
    ({ e with view := v, toView := v, reqCache := e.reqCache.removeInvalidViewChange v },
      [⟨v, (e.reqCache.requests v).nodes⟩])
  else (e, [])

/-- `handleViewChangeMsg`. -/
def handleViewChangeMsg (req : ViewChangeReq H Sg)
    (source : Nat) (e : ViewEngine H Id Sg) : ViewEngine H Id Sg × List (Raised H Sg) :=
  let (valid, e) := e.isValidViewChangeReq c env req source
  if !valid then (e, [])
  else
    let e := { e with reqCache := e.reqCache.addViewChangeReq req env.chainNumber }
    let (e, raised) := e.checkAndChangeView req.view
    if raised.isEmpty && e.toView < req.view then
      match e.canTriggerViewChange env.committedHeight with
      | some minView => ({ e with toView := minView - 1 }, [])
      | none => (e, [])
    else (e, raised)

/-- `checkTimeout`, with the node's own request (`broadcastViewChangeReq`). -/
def checkTimeout (e : ViewEngine H Id Sg) :
    ViewEngine H Id Sg × List (Raised H Sg) :=
  if !env.isTimeout then (e, [])
  else
    let toView := e.toView + 1
    let own := ViewChangeReq.make c e.keyPair e.highest.number toView e.nodeIdx env.utcTime
      e.highest.hash
    let reqCache := (e.reqCache.removeExpiredViewChange toView e.highest).addViewChangeReq own
      env.chainNumber
    let e := { e with toView := toView, reqCache := reqCache }
    if env.broadcastOk then e.checkAndChangeView toView else (e, [])

/-- `reportBlockWithoutLock`. -/
def reportBlock (block : Highest H) (e : ViewEngine H Id Sg) : ViewEngine H Id Sg :=
  if env.chainNumber = 0 ∨ e.highest.number < block.number then
    if e.consensusBlockNumber ≤ block.number then
      { e with
        highest := block
        view := 0
        toView := 0
        consensusBlockNumber := block.number + 1
        reqCache := e.reqCache.delInvalidViewChange block }
    else { e with highest := block }
  else e

/-- The handler of an event. The work loop of a node that is no sealer does nothing, but blocks
are reported to it all the same. -/
def handle (ev : ViewEvent H Sg) (e : ViewEngine H Id Sg) :
    ViewEngine H Id Sg × List (Raised H Sg) :=
  match ev with
  | .reportBlock block env => (e.reportBlock env block, [])
  | .viewChange req source env =>
    if e.nodeIdx = maxIdx then (e, []) else e.handleViewChangeMsg c env req source
  | .checkTimeout env => if e.nodeIdx = maxIdx then (e, []) else e.checkTimeout c env
  | .collectGarbage =>
    if e.nodeIdx = maxIdx then (e, [])
    else ({ e with reqCache := e.reqCache.collectGarbage e.highest }, [])

end ViewEngine

/-! ### Counters -/

theorem int64_lt_add_one {a : Int64} (h : a ≠ maxValue) : a < a + 1 := by
  have hmax : a.toInt ≠ 2 ^ 63 - 1 := by
    exact fun heq => h (toInt_inj.mp heq)
  have hlo := a.le_toInt
  have hhi := a.toInt_lt
  have hone : (1 : Int64).toInt = 1 := rfl
  rw [lt_iff_toInt_lt, toInt_add, Int.bmod_eq_of_le (by omega) (by omega)]
  omega

theorem int64_le_sub_one {a b : Int64} (h : a < b) : a ≤ b - 1 := by
  rw [lt_iff_toInt_lt] at h
  have hlo := a.le_toInt
  have hhi := b.toInt_lt
  have hone : (1 : Int64).toInt = 1 := rfl
  rw [le_iff_toInt_le, toInt_sub, Int.bmod_eq_of_le (by omega) (by omega)]
  omega

namespace ViewEngine

/-! ### The fast view change goes up -/

variable {toView highestNumber v : Int64} {scan : TriggerScan} {e : ViewEngine H Id Sg}

/-- What the scan keeps: the lowest view lies above `toView`, or nothing was found yet. -/
def ScanOk (toView : Int64) (scan : TriggerScan) : Prop :=
  toView < scan.minView ∨ (scan.idxView.size = 0 ∧ scan.minView = maxValue)

theorem ScanOk.request (hok : ScanOk toView scan) (hv : toView < v)
    (entry : Nat × ViewChangeReq H Sg) :
    ScanOk toView (scanRequest highestNumber v scan entry) := by
  unfold scanRequest
  split
  · refine .inl ?_
    dsimp only
    split_ifs with hle
    · exact hv
    · rcases hok with hlt | ⟨-, hmax⟩
      · exact hlt
      · -- nothing lies above `INT64_MAX`, so `v` is `INT64_MAX` itself
        have hge := v.toInt_le
        rw [hmax] at hle ⊢
        rw [lt_iff_toInt_lt] at hle hv ⊢
        omega
  · exact hok

theorem ScanOk.view (hok : ScanOk toView scan)
    (item : Int64 × UnorderedMap Nat (ViewChangeReq H Sg)) :
    ScanOk toView (scanView toView highestNumber scan item) := by
  unfold scanView
  split_ifs with hv
  · generalize item.2.nodes = entries
    induction entries generalizing scan with
    | nil => exact hok
    | cons entry entries ih => exact ih (hok.request hv entry)
  · exact hok

theorem ScanOk.foldl (hok : ScanOk toView scan)
    (items : List (Int64 × UnorderedMap Nat (ViewChangeReq H Sg))) :
    ScanOk toView (items.foldl (scanView toView highestNumber) scan) := by
  induction items generalizing scan with
  | nil => exact hok
  | cons item items ih => exact ih (hok.view item)

theorem lt_of_canTriggerViewChange {committedHeight minView : Int64}
    (h : e.canTriggerViewChange committedHeight = some minView) : e.toView < minView := by
  have hok : ScanOk e.toView (e.reqCache.recvViewChangeReq.nodes.foldl
      (scanView e.toView e.highest.number) ⟨∅, maxValue, maxValue⟩) :=
    ScanOk.foldl (.inr ⟨rfl, rfl⟩) _
  unfold canTriggerViewChange at h
  dsimp only at h
  split at h
  · rename_i hcount
    cases h
    rw [Bool.and_eq_true, decide_eq_true_eq] at hcount
    rcases hok with hlt | ⟨hsize, -⟩
    · exact hlt
    · rw [hsize] at hcount
      exact absurd hcount.1 (Nat.not_lt_zero _)
  · cases h

/-! ### Soundness of the handlers -/

variable {c : Crypto H Id Sg} {env : ViewEnv}

/-- The consensus height grows, or it stays and the view does not decrease. -/
def NotBefore (e e' : ViewEngine H Id Sg) : Prop :=
  e.consensusBlockNumber < e'.consensusBlockNumber ∨
    (e.consensusBlockNumber = e'.consensusBlockNumber ∧ e.view ≤ e'.view)

theorem NotBefore.refl (e : ViewEngine H Id Sg) : NotBefore e e := .inr ⟨rfl, Int64.le_refl _⟩

variable [DecidableEq Id]

/-- The invariant: `toView` is not behind, and every cached request is filed under its own view
and index and is either the node's own or signed by the sealer of that index. -/
structure ViewOk (c : Crypto H Id Sg) (e : ViewEngine H Id Sg) : Prop where
  le : e.view ≤ e.toView
  cached : ∀ v i req, e.reqCache.request? v i = some req →
    req.view = v ∧ req.idx = i ∧ (i = e.nodeIdx ∨ e.checkSign c req = true)

/-- The requests contain one, verified and for the view entered, of each of `minValidNodes - 1`
sealers besides the node itself. -/
def Supported (c : Crypto H Id Sg) (e : ViewEngine H Id Sg) (r : Raised H Sg) : Prop :=
  ∃ S : Finset Nat, minValidNodes e.sealerList - 1 ≤ S.card ∧ ∀ i ∈ S, i ≠ e.nodeIdx ∧
    ∃ req id, (i, req) ∈ r.requests ∧ req.view = r.view ∧ e.sealerList[i]? = some id ∧
      req.toMsg.signedBy c id = true

/-- What a handler's work amounts to. -/
structure Sound (c : Crypto H Id Sg) (e : ViewEngine H Id Sg)
    (result : ViewEngine H Id Sg × List (Raised H Sg)) : Prop where
  frame : result.1.sealerList = e.sealerList ∧ result.1.keyPair = e.keyPair
  ok : ViewOk c result.1
  notBefore : NotBefore e result.1
  supported : ∀ r ∈ result.2, Supported c e r

/-- A cache that has lost requests, with whatever the node asks for next. -/
theorem ViewOk.within (hok : ViewOk c e) {cache : ViewChangeCache H Sg}
    (hwithin : cache.Within e.reqCache) (hle : e.view ≤ toView) :
    ViewOk c { e with toView := toView, reqCache := cache } :=
  ⟨hle, fun v i req hreq => hok.cached v i req (hwithin v i req hreq)⟩

/-- The quorum of requests that `checkAndChangeView` counts is a quorum of sealers. -/
theorem ViewOk.supported (hok : ViewOk c e)
    (hcount : minValidNodes e.sealerList ≤ toIdx (e.reqCache.getViewChangeSize v)) :
    Supported c e ⟨v, (e.reqCache.requests v).nodes⟩ := by
  have hnodup : (e.reqCache.requests v).keys.Nodup := (e.reqCache.requests v).nodup
  refine ⟨((e.reqCache.requests v).keys.toFinset).erase e.nodeIdx, ?_, ?_⟩
  · have hcard : ((e.reqCache.requests v).keys.toFinset).card =
        e.reqCache.getViewChangeSize v := by
      rw [toFinset_card_of_nodup hnodup, UnorderedMap.length_keys]
      rfl
    have hpred := Finset.pred_card_le_card_erase
      (s := (e.reqCache.requests v).keys.toFinset) (a := e.nodeIdx)
    unfold toIdx at hcount
    omega
  · intro i hi
    obtain ⟨hne, hmem⟩ := Finset.mem_erase.mp hi
    obtain ⟨⟨j, req⟩, hnode, rfl⟩ := mem_map.mp (mem_toFinset.mp hmem)
    have hreq : e.reqCache.request? v j = some req :=
      (UnorderedMap.find?_eq_some_iff _ _ _).mpr hnode
    obtain ⟨hview, hidx, hown | hsign⟩ := hok.cached v j req hreq
    · exact absurd hown hne
    · simp only [checkSign, Bool.and_eq_true, decide_eq_true_eq, hidx] at hsign
      exact ⟨hne, req, _, hnode, hview, getElem?_of_getSealerByIndex hsign.1, hsign.2⟩

theorem checkAndChangeView_sound (hok : ViewOk c e) (hv : e.view ≤ v) :
    Sound c e (e.checkAndChangeView v) := by
  unfold checkAndChangeView
  split_ifs with hcount
  · refine ⟨⟨rfl, rfl⟩, ⟨Int64.le_refl _, fun w i req hreq => ?_⟩, .inr ⟨rfl, hv⟩, ?_⟩
    · exact hok.cached w i req
        (removeInvalidViewChange_within v _ w i req hreq)
    · intro r hr
      obtain rfl := mem_singleton.mp hr
      exact hok.supported hcount
  · exact ⟨⟨rfl, rfl⟩, hok, NotBefore.refl e, by simp⟩

theorem Supported.of_frame {e' : ViewEngine H Id Sg} {r : Raised H Sg} (h : Supported c e r)
    (hframe : e'.sealerList = e.sealerList ∧ e'.keyPair = e.keyPair) : Supported c e' r := by
  unfold Supported nodeIdx at *
  rw [hframe.1, hframe.2]
  exact h

variable [DecidableEq H]

/-- Validation changes at most the latest requests, and what it accepts is for a higher view,
of another index and signed. -/
theorem isValidViewChangeReq_spec (c : Crypto H Id Sg) (env : ViewEnv) (req : ViewChangeReq H Sg)
    (source : Nat) (e : ViewEngine H Id Sg) :
    ∃ cache : ViewChangeCache H Sg, cache.Within e.reqCache ∧
      (e.isValidViewChangeReq c env req source).2 = { e with reqCache := cache } ∧
      ((e.isValidViewChangeReq c env req source).1 = true →
        e.view < req.view ∧ e.checkSign c req = true) := by
  unfold isValidViewChangeReq
  split
  · exact ⟨_, Within.refl _, rfl, by simp⟩
  · split
    · exact ⟨_, Within.refl _, rfl, by simp⟩
    · split
      · exact ⟨_, Within.refl _, rfl, by simp⟩
      · have hcatchup : ∃ cache : ViewChangeCache H Sg, cache.Within e.reqCache ∧
            (if req.view + 1 < e.toView ∧ req.idx = source then e.catchupView req else e) =
              { e with reqCache := cache } := by
          unfold catchupView
          split
          · split
            · exact ⟨e.reqCache.eraseLatest req.idx, fun _ _ _ h => h, rfl⟩
            · exact ⟨_, Within.refl _, rfl⟩
          · exact ⟨_, Within.refl _, rfl⟩
        obtain ⟨cache, hwithin, heq⟩ := hcatchup
        refine ⟨cache, hwithin, heq, fun hvalid => ?_⟩
        rw [heq] at hvalid
        simp only [Bool.and_eq_true, decide_eq_true_eq] at hvalid
        exact ⟨hvalid.1.1.1, hvalid.2⟩

theorem reportBlock_sound {block : Highest H} (hok : ViewOk c e)
    (hmax : block.number ≠ maxValue) : Sound c e (e.reportBlock env block, []) := by
  unfold reportBlock
  split
  · split_ifs with hle
    · refine ⟨⟨rfl, rfl⟩, ⟨Int64.le_refl _, fun v i req hreq => ?_⟩, .inl ?_, by simp⟩
      · exact hok.cached v i req
          (delInvalidViewChange_within block _ v i req hreq)
      · exact Int64.lt_of_le_of_lt hle (int64_lt_add_one hmax)
    · exact ⟨⟨rfl, rfl⟩, ⟨hok.le, hok.cached⟩, NotBefore.refl e, by simp⟩
  · exact ⟨⟨rfl, rfl⟩, hok, NotBefore.refl e, by simp⟩

variable [DecidableEq Sg]

/-- A verified request, or the node's own, may be added. -/
theorem ViewOk.add (hok : ViewOk c e) (req : ViewChangeReq H Sg)
    (hreq : req.idx = e.nodeIdx ∨ e.checkSign c req = true) (blockNumber : Int64) :
    ViewOk c { e with reqCache := e.reqCache.addViewChangeReq req blockNumber } := by
  refine ⟨hok.le, fun v i r hr => ?_⟩
  rcases request?_addViewChangeReq hr with hr | ⟨rfl, rfl, rfl⟩
  · exact hok.cached v i r hr
  · exact ⟨rfl, rfl, hreq⟩

theorem handleViewChangeMsg_sound {req : ViewChangeReq H Sg} {source : Nat} (hok : ViewOk c e) :
    Sound c e (e.handleViewChangeMsg c env req source) := by
  obtain ⟨cache, hwithin, heq, hvalid⟩ := isValidViewChangeReq_spec c env req source e
  have hok₁ : ViewOk c { e with reqCache := cache } := hok.within hwithin hok.le
  unfold handleViewChangeMsg
  dsimp only
  rw [heq]
  split
  · exact ⟨⟨rfl, rfl⟩, hok₁, NotBefore.refl e, by simp⟩
  · rename_i hv
    obtain ⟨hlt, hsign⟩ := hvalid (by simpa using hv)
    have hok₂ := hok₁.add req (.inr hsign) env.chainNumber
    have hsound := checkAndChangeView_sound hok₂ (Int64.le_of_lt hlt)
    split
    · split
      · rename_i minView htrigger
        refine ⟨hsound.frame, ⟨?_, hsound.ok.cached⟩, hsound.notBefore, by simp⟩
        exact Int64.le_trans hsound.ok.le (int64_le_sub_one (lt_of_canTriggerViewChange htrigger))
      · exact ⟨hsound.frame, hsound.ok, hsound.notBefore, by simp⟩
    · exact ⟨hsound.frame, hsound.ok, hsound.notBefore, hsound.supported⟩

theorem checkTimeout_sound (hok : ViewOk c e)
    (hmax : env.isTimeout = true → e.toView ≠ maxValue) :
    Sound c e (e.checkTimeout c env) := by
  unfold checkTimeout
  split
  · exact ⟨⟨rfl, rfl⟩, hok, NotBefore.refl e, by simp⟩
  · rename_i htimeout
    have hlt := int64_lt_add_one (hmax (by simpa using htimeout))
    have hle : e.view ≤ e.toView + 1 := Int64.le_trans hok.le (Int64.le_of_lt hlt)
    have hok₁ := hok.within
      (removeExpiredViewChange_within (e.toView + 1) e.highest e.reqCache) hle
    have hok₂ := hok₁.add (ViewChangeReq.make c e.keyPair e.highest.number (e.toView + 1)
      e.nodeIdx env.utcTime e.highest.hash) (.inl rfl) env.chainNumber
    split
    · have hsound := checkAndChangeView_sound hok₂ hle
      exact ⟨hsound.frame, hsound.ok, hsound.notBefore, hsound.supported⟩
    · exact ⟨⟨rfl, rfl⟩, hok₂, NotBefore.refl e, by simp⟩

/-- No counter is at its maximum when it is incremented: `toView` at a timeout, the number of a
reported block. -/
def NoWrap (e : ViewEngine H Id Sg) : ViewEvent H Sg → Prop
  | .checkTimeout env => env.isTimeout = true → e.toView ≠ maxValue
  | .reportBlock block _ => block.number ≠ maxValue
  | _ => True

instance (e : ViewEngine H Id Sg) (ev : ViewEvent H Sg) : Decidable (NoWrap e ev) := by
  cases ev <;> unfold NoWrap <;> infer_instance

theorem handle_sound {ev : ViewEvent H Sg} (hok : ViewOk c e) (hwrap : NoWrap e ev) :
    Sound c e (e.handle c ev) := by
  have hidle : Sound c e (e, []) := ⟨⟨rfl, rfl⟩, hok, NotBefore.refl e, by simp⟩
  cases ev with
  | reportBlock block env => exact reportBlock_sound hok hwrap
  | viewChange req source env =>
    simp only [handle]
    split
    · exact hidle
    · exact handleViewChangeMsg_sound hok
  | checkTimeout env =>
    simp only [handle]
    split
    · exact hidle
    · exact checkTimeout_sound hok hwrap
  | collectGarbage =>
    simp only [handle]
    split
    · exact hidle
    · refine ⟨⟨rfl, rfl⟩, ⟨hok.le, fun v i req hreq => ?_⟩, NotBefore.refl e, by simp⟩
      exact hok.cached v i req
        (delInvalidViewChange_within e.highest _ v i req hreq)

end ViewEngine

/-! ### Runs -/

open ViewEngine (NoWrap NotBefore Supported ViewOk)

/-- An engine and the view changes it has made, oldest first. -/
structure ViewNode (H Id Sg : Type) where
  engine : ViewEngine H Id Sg
  raised : List (Raised H Sg)

section

variable [DecidableEq H] [DecidableEq Id] [DecidableEq Sg]

def ViewNode.step (c : Crypto H Id Sg) (n : ViewNode H Id Sg) (ev : ViewEvent H Sg) :
    Option (ViewNode H Id Sg) :=
  let (engine, raised) := n.engine.handle c ev
  some ⟨engine, n.raised ++ raised⟩

/-- The invariant of a run. -/
structure ViewNodeOk (c : Crypto H Id Sg) (n : ViewNode H Id Sg) : Prop where
  engine : ViewOk c n.engine
  supported : ∀ r ∈ n.raised, Supported c n.engine r

theorem ViewNodeOk.step {c : Crypto H Id Sg} {n n' : ViewNode H Id Sg} {ev : ViewEvent H Sg}
    (hok : ViewNodeOk c n) (hwrap : NoWrap n.engine ev) (h : n.step c ev = some n') :
    ViewNodeOk c n' ∧ NotBefore n.engine n'.engine := by
  cases h
  have hsound := ViewEngine.handle_sound hok.engine hwrap
  refine ⟨⟨hsound.ok, fun r hr => ?_⟩, hsound.notBefore⟩
  rcases mem_append.mp hr with hr | hr
  · exact (hok.supported r hr).of_frame hsound.frame
  · exact (hsound.supported r hr).of_frame hsound.frame

/-- **View-change soundness.** In every run in which no counter is incremented at its maximum:
`toView` is not smaller than `view`; every view was entered with verified requests for it of
`minValidNodes - 1` other sealers; and the next step decreases neither the consensus height nor,
at the same height, the view. -/
theorem view_change_sound {c : Crypto H Id Sg} {sealers : List Id} {key noId : Id} {hash : H}
    {es : List (ViewEvent H Sg)} {n : ViewNode H Id Sg}
    (h : Run (Guarded (fun n ev => NoWrap n.engine ev) (Steps (ViewNode.step c)))
      ⟨ViewEngine.init sealers key noId hash, []⟩ es n) :
    n.engine.view ≤ n.engine.toView ∧ (∀ r ∈ n.raised, Supported c n.engine r) ∧
      ∀ ev n', NoWrap n.engine ev → n.step c ev = some n' → NotBefore n.engine n'.engine := by
  have hinit : ViewNodeOk c (⟨ViewEngine.init sealers key noId hash, []⟩ : ViewNode H Id Sg) := by
    refine ⟨⟨Int64.le_refl _, fun v i req hreq => ?_⟩, by simp⟩
    cases hreq
  have hok : ViewNodeOk c n :=
    h.invariant (fun _ => ViewNodeOk c) hinit
      fun _ _ _ _ hok hstep => (hok.step hstep.1 hstep.2).1
  exact ⟨hok.engine.le, hok.supported, fun ev n' hwrap hstep => (hok.step hwrap hstep).2⟩

end

/-! ### A group of two sealers -/

/-- The sealer with index 0 of two, before the first block. -/
def viewNode : ViewNode Digest Nat Signature := ⟨ViewEngine.init [10, 11] 10 0 (.leaf 0), []⟩

def viewEnv : ViewEnv := ⟨0, true, -1, 0, true, true⟩

/-- The genesis block is reported, the other sealer asks for `view`, and the timer runs out
`timeouts` times. -/
def viewRun (view : Int64) (timeouts : Nat) : List (ViewEvent Digest Signature) :=
  [.reportBlock ⟨0, .leaf 0⟩ viewEnv,
    .viewChange (ViewChangeReq.make symbolic 11 0 view 1 0 (.leaf 0)) 1 viewEnv] ++
  List.replicate timeouts (.checkTimeout viewEnv)

/-- The node follows the other sealer to view 5, and has its request to show for it. -/
theorem viewRun_supported :
    ∃ n, Run (Guarded (fun n ev => NoWrap n.engine ev) (Steps (ViewNode.step symbolic))) viewNode
        (viewRun 5 1) n ∧
      n.engine.view = 5 ∧ n.engine.view ≤ n.engine.toView ∧ n.raised.length = 1 ∧
      ∀ r ∈ n.raised, Supported symbolic n.engine r := by
  refine exists_guardedRun_of_exec (p := fun n => n.engine.view = 5 ∧ n.raised.length = 1)
    (by decide +kernel) fun n hrun h => ?_
  obtain ⟨hle, hsupported, -⟩ := view_change_sound hrun
  exact ⟨h.1, hle, h.2, hsupported⟩

/-- **The failing run.** The other sealer asks for view `INT64_MAX`. The node follows it there,
and at the next timeout `toView` wraps around to `INT64_MIN`. -/
theorem toView_wraps :
    ∃ n, Run (Steps (ViewNode.step symbolic)) viewNode (viewRun maxValue 2) n ∧
      n.engine.view = maxValue ∧ n.engine.toView = minValue ∧
      ¬ n.engine.view ≤ n.engine.toView := by
  exact exists_run_of_exec (by decide +kernel) fun _ _ h => h

end Rcc.Pbft
