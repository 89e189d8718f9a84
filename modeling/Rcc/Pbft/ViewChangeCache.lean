import Rcc.Pbft.Common

/-!
# Rcc.Pbft.ViewChangeCache

The view-change part of `PBFTReqCache`: the requests received, filed under (view, index), and
the latest request of every index. Views and heights are 64-bit integers of the source, so that
arithmetic on them wraps around.

The engine reads the cache through one lookup (`request?`). Every garbage collection only takes
requests away (`Within`), and `addViewChangeReq` adds at most the one it is given
(`request?_addViewChangeReq`).
-/

namespace Rcc.Pbft

open UnorderedMap

variable {H Id Sg : Type}

/-- `ViewChangeReq`. -/
structure ViewChangeReq (H Sg : Type) where
  height : Int64
  view : Int64
  idx : Nat
  timestamp : Nat
  blockHash : H
  sig : Sg
  sig2 : Sg
deriving DecidableEq

def ViewChangeReq.toMsg (req : ViewChangeReq H Sg) : PBFTMsg H Sg where
  height := req.height.toInt
  view := req.view.toInt
  idx := req.idx
  timestamp := req.timestamp
  blockHash := req.blockHash
  sig := req.sig
  sig2 := req.sig2

/-- `ViewChangeReq(keyPair, height, view, idx, hash)`. -/
def ViewChangeReq.make (c : Crypto H Id Sg) (key : Id) (height view : Int64) (idx timestamp : Nat)
    (blockHash : H) : ViewChangeReq H Sg :=
  let m := PBFTMsg.make c key height.toInt view.toInt idx timestamp blockHash
  { height := height
    view := view
    idx := idx
    timestamp := timestamp
    blockHash := blockHash
    sig := m.sig
    sig2 := m.sig2 }

/-- What the cache needs to know of the highest block. -/
structure Highest (H : Type) where
  number : Int64
  hash : H

structure ViewChangeCache (H Sg : Type) where
  recvViewChangeReq : UnorderedMap Int64 (UnorderedMap Nat (ViewChangeReq H Sg))
  latestViewChangeReqCache : UnorderedMap Nat (ViewChangeReq H Sg)

instance : EmptyCollection (ViewChangeCache H Sg) := ⟨⟨∅, ∅⟩⟩

namespace ViewChangeCache

variable (c : ViewChangeCache H Sg)

/-- The requests for a view. -/
def requests (v : Int64) : UnorderedMap Nat (ViewChangeReq H Sg) :=
  (c.recvViewChangeReq.find? v).getD ∅

/-- The request for a view under an index. -/
def request? (v : Int64) (i : Nat) : Option (ViewChangeReq H Sg) := (c.requests v).find? i

/-- `isExistViewChange`. -/
def isExistViewChange (req : ViewChangeReq H Sg) : Bool := (c.requests req.view).contains req.idx

/-- `getViewChangeSize`. -/
def getViewChangeSize (v : Int64) : Nat := (c.requests v).size

/-! ### Insertion -/

section Insertion

variable [DecidableEq H] [DecidableEq Sg]

/-- `eraseExpiredViewChange`: the latest request of the index goes, and with it the same request
where it is filed under its view. -/
def eraseExpiredViewChange (cached : ViewChangeReq H Sg) (c : ViewChangeCache H Sg) :
    ViewChangeCache H Sg :=
  match c.latestViewChangeReqCache.find? cached.idx with
  | none => c
  | some latest =>
    match c.request? latest.view cached.idx with
    | none => c
    | some received =>
      { recvViewChangeReq :=
          if latest = received then
            c.recvViewChangeReq.set latest.view
              ((c.requests latest.view).erase cached.idx)
          else c.recvViewChangeReq
        latestViewChangeReqCache := c.latestViewChangeReqCache.erase cached.idx }

/-- `checkViewChangeReq`: whether the request may be added, and the cache without an expired
request of the same index. -/
def checkViewChangeReq (req : ViewChangeReq H Sg) (blockNumber : Int64) (c : ViewChangeCache H Sg) :
    Bool × ViewChangeCache H Sg :=
  if req.height < blockNumber then (false, c)
  else
    match c.latestViewChangeReqCache.find? req.idx with
    | none => (true, c)
    | some cached =>
      if cached.height < blockNumber then (true, c.eraseExpiredViewChange cached)
      else (!(req.height < cached.height || req.view < cached.view), c)

/-- `addViewChangeReq`. -/
def addViewChangeReq (req : ViewChangeReq H Sg) (blockNumber : Int64) (c : ViewChangeCache H Sg) :
    ViewChangeCache H Sg :=
  let (ok, c) := c.checkViewChangeReq req blockNumber
  if ok then
    { recvViewChangeReq := c.recvViewChangeReq.set req.view ((c.requests req.view).set req.idx req)
      latestViewChangeReqCache := c.latestViewChangeReqCache.set req.idx req }
  else c

end Insertion

/-! ### Garbage collection -/

section Removal

variable [DecidableEq H] (highest : Highest H)

/-- A request of a height below the highest block, or of its height with another hash. -/
def expired (req : ViewChangeReq H Sg) : Bool :=
  req.height < highest.number || (req.height = highest.number && req.blockHash ≠ highest.hash)

variable (c : ViewChangeCache H Sg)

/-- `removeInvalidLatestViewChangeReq`. -/
def removeInvalidLatestViewChangeReq :
    ViewChangeCache H Sg :=
  { c with
    latestViewChangeReqCache := c.latestViewChangeReqCache.filter fun p => !expired highest p.2 }

/-- `removeInvalidViewChange(view, highestBlock)`. -/
def removeExpiredViewChange (v : Int64) (highest : Highest H) (c : ViewChangeCache H Sg) :
    ViewChangeCache H Sg :=
  match c.recvViewChangeReq.find? v with
  | none => c
  | some reqs =>
    removeInvalidLatestViewChangeReq highest
      { c with
        recvViewChangeReq := c.recvViewChangeReq.set v (reqs.filter fun p => !expired highest p.2) }

/-- `delInvalidViewChange`: expired requests of every view, then the views left empty. -/
def delInvalidViewChange : ViewChangeCache H Sg :=
  { c with
    recvViewChangeReq :=
      (c.recvViewChangeReq.mapValues fun reqs =>
        reqs.filter fun p => !expired highest p.2).filter fun p => p.2.size ≠ 0 }

/-- `collectGarbage`. -/
def collectGarbage : ViewChangeCache H Sg :=
  (c.delInvalidViewChange highest).removeInvalidLatestViewChangeReq highest

end Removal

/-- `removeInvalidViewChange(curView)`: everything up to the view that was reached. -/
def removeInvalidViewChange (curView : Int64) (c : ViewChangeCache H Sg) :
    ViewChangeCache H Sg where
  recvViewChangeReq := c.recvViewChangeReq.filter fun p => curView < p.1
  latestViewChangeReqCache := c.latestViewChangeReqCache.filter fun p => curView < p.2.view

/-- `eraseLatestViewChangeCacheForNodeUpdated`. -/
def eraseLatest (idx : Nat) (c : ViewChangeCache H Sg) : ViewChangeCache H Sg :=
  { c with latestViewChangeReqCache := c.latestViewChangeReqCache.erase idx }

/-! ### What the operations do to lookups -/

theorem request?_eq_some_iff {c : ViewChangeCache H Sg} {v : Int64} {i : Nat}
    {req : ViewChangeReq H Sg} :
    c.request? v i = some req ↔
      ∃ reqs, c.recvViewChangeReq.find? v = some reqs ∧ reqs.find? i = some req := by
  unfold request? requests
  cases c.recvViewChangeReq.find? v <;> simp

theorem request?_set (c : ViewChangeCache H Sg) (v v' : Int64) (i : Nat)
    (reqs : UnorderedMap Nat (ViewChangeReq H Sg))
    (latest : UnorderedMap Nat (ViewChangeReq H Sg)) :
    (⟨c.recvViewChangeReq.set v reqs, latest⟩ : ViewChangeCache H Sg).request? v' i =
      if v' = v then reqs.find? i else c.request? v' i := by
  unfold request? requests
  rw [find?_set]
  split <;> rfl

/-- Every request of `c'` is one of `c`. -/
def Within (c' c : ViewChangeCache H Sg) : Prop :=
  ∀ v i req, c'.request? v i = some req → c.request? v i = some req

theorem Within.refl (c : ViewChangeCache H Sg) : c.Within c := fun _ _ _ h => h

theorem removeInvalidViewChange_within (curView : Int64) (c : ViewChangeCache H Sg) :
    (c.removeInvalidViewChange curView).Within c := by
  intro v i req hreq
  obtain ⟨reqs, hv, hi⟩ := request?_eq_some_iff.mp hreq
  exact request?_eq_some_iff.mpr ⟨reqs, (find?_of_filter hv).1, hi⟩

section

variable [DecidableEq H]

theorem removeExpiredViewChange_within (v : Int64) (highest : Highest H)
    (c : ViewChangeCache H Sg) : (c.removeExpiredViewChange v highest).Within c := by
  unfold removeExpiredViewChange
  split
  · exact Within.refl c
  · rename_i reqs hreqs
    intro v' i req hreq
    simp only [removeInvalidLatestViewChangeReq, request?_set] at hreq
    split_ifs at hreq with hv
    · subst hv
      exact request?_eq_some_iff.mpr ⟨reqs, hreqs, (find?_of_filter hreq).1⟩
    · exact hreq

theorem delInvalidViewChange_within (highest : Highest H) (c : ViewChangeCache H Sg) :
    (c.delInvalidViewChange highest).Within c := by
  intro v i req hreq
  obtain ⟨reqs, hv, hi⟩ := request?_eq_some_iff.mp hreq
  have hv' := (find?_of_filter hv).1
  rw [find?_mapValues] at hv'
  obtain ⟨old, hold, rfl⟩ := Option.map_eq_some_iff.mp hv'
  exact request?_eq_some_iff.mpr ⟨old, hold, (find?_of_filter hi).1⟩

variable [DecidableEq Sg]

theorem eraseExpiredViewChange_within (cached : ViewChangeReq H Sg) (c : ViewChangeCache H Sg) :
    (c.eraseExpiredViewChange cached).Within c := by
  unfold eraseExpiredViewChange
  split
  · exact Within.refl c
  · split
    · exact Within.refl c
    · split
      · intro v i req hreq
        rw [request?_set] at hreq
        split_ifs at hreq with hv
        · rw [find?_erase] at hreq
          split at hreq
          · cases hreq
          · exact hv ▸ hreq
        · exact hreq
      · exact Within.refl c

theorem checkViewChangeReq_within (req : ViewChangeReq H Sg) (blockNumber : Int64)
    (c : ViewChangeCache H Sg) : (c.checkViewChangeReq req blockNumber).2.Within c := by
  unfold checkViewChangeReq
  split
  · exact Within.refl c
  · split
    · exact Within.refl c
    · split
      · exact eraseExpiredViewChange_within _ c
      · exact Within.refl c

/-- A request found after an insertion was there before, or is the inserted one. -/
theorem request?_addViewChangeReq {req r : ViewChangeReq H Sg} {blockNumber : Int64}
    {c : ViewChangeCache H Sg} {v : Int64} {i : Nat}
    (h : (c.addViewChangeReq req blockNumber).request? v i = some r) :
    c.request? v i = some r ∨ (v = req.view ∧ i = req.idx ∧ r = req) := by
  have hcheck := checkViewChangeReq_within req blockNumber c
  unfold addViewChangeReq at h
  dsimp only at h
  split at h
  · rw [request?_set] at h
    split_ifs at h with hv
    · rw [find?_set] at h
      split_ifs at h with hi
      · exact .inr ⟨hv, hi, (Option.some.inj h).symm⟩
      · exact .inl (hcheck v i r (hv ▸ h))
    · exact .inl (hcheck v i r h)
  · exact .inl (hcheck v i r h)

end

end ViewChangeCache

end Rcc.Pbft
