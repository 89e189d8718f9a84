import Rcc.Lib.Except
import Rcc.Precompiled.WorkingSealerManager

/-!
# Rcc.Precompiled.Rotation

What a rotation of the working sealers leaves behind.

* `CommitteeKept` — what it is for: as many working sealers as configured, or all of them where
  there are fewer, and every sealer still a sealer;
* `Swap` — what it does: some working sealers go out, some pending ones come in;
* `shouldRotate_true` — where the size a rotation works with comes from: the configuration, unless
  `notify_rotate` is set;
* `rotateWorkingSealer_keeps_committee_iff` — when the committee is kept, whatever stood in the
  memory of the manager.
-/

namespace Rcc.Precompiled

open List NodeRow ConsTable Manager Except

open Storage (Address)

variable {crypto : Crypto} {ctx ctx' : Context} {m : Manager} {info : VRFInfo}

/-! ## The rows of a node -/

namespace ConsTable

variable {t : ConsTable}

def row? (t : ConsTable) (v : NodeId) : Option NodeRow := t.rows.find? (·.nodeId = v)

/-- The type a node has in the table. -/
def type? (t : ConsTable) (v : NodeId) : Option NodeType := (t.row? v).map type

theorem row?_of_mem {row : NodeRow} (h : row ∈ t.rows) : t.row? row.nodeId = some row := by
  have hinj := inj_on_of_nodup_map t.nodup
  rw [row?, List.find?_eq_some_iff_getElem]
  obtain ⟨i, hi, hrow⟩ := getElem_of_mem h
  refine ⟨by simp, i, hi, hrow, fun j hj => ?_⟩
  have hne : t.rows[j] ≠ row := fun heq => absurd
    ((List.Nodup.of_map _ t.nodup).getElem_inj_iff.mp (heq.trans hrow.symm)) (Nat.ne_of_lt hj)
  simpa using fun hid => hne (hinj (getElem_mem _) h hid)

/-- Give all of some nodes a type, from block `n` on. -/
def retypeAll (t : ConsTable) (vs : List NodeId) (type : NodeType) (n : Int) : ConsTable :=
  t.mapRows (fun row => if row.nodeId ∈ vs then { row with type, enableNum := n } else row)
    fun row => by split <;> rfl

theorem retypeAll_nil (t : ConsTable) (type : NodeType) (n : Int) : t.retypeAll [] type n = t := by
  simp [retypeAll, mapRows]

theorem retypeAll_cons (t : ConsTable) (v : NodeId) (vs : List NodeId) (type : NodeType) (n : Int) :
    (t.mapRows (retype v type n) (by simp)).retypeAll vs type n =
      t.retypeAll (v :: vs) type n := by
  simp only [retypeAll, mapRows, map_map, mk.injEq]
  refine map_congr_left fun row _ => ?_
  by_cases hv : row.nodeId = v <;> by_cases hvs : row.nodeId ∈ vs <;>
    simp [retype, hv]

@[simp] theorem nodeIds_retypeAll (t : ConsTable) (vs : List NodeId) (type : NodeType) (n : Int) :
    (t.retypeAll vs type n).rows.map nodeId = t.rows.map nodeId := by
  simp only [retypeAll, mapRows, map_map]
  refine map_congr_left fun row _ => ?_
  simp only [Function.comp]
  split <;> rfl

theorem row?_retypeAll (t : ConsTable) (vs : List NodeId) (type : NodeType) (n : Int) (v : NodeId) :
    (t.retypeAll vs type n).row? v =
      (t.row? v).map fun row => if v ∈ vs then { row with type, enableNum := n } else row := by
  rw [row?, retypeAll, mapRows, List.find?_map]
  have hcomp : (fun row : NodeRow => decide (row.nodeId = v)) ∘
      (fun row => if row.nodeId ∈ vs then { row with type, enableNum := n } else row) =
      fun row => decide (row.nodeId = v) := by
    funext row
    simp only [Function.comp]
    split <;> rfl
  rw [hcomp]
  refine Option.map_congr fun row hrow => ?_
  obtain rfl : row.nodeId = v := by simpa using List.find?_some hrow
  rfl

theorem type?_retypeAll_of_mem {vs : List NodeId} {v : NodeId} {ty : NodeType} (hv : v ∈ vs)
    (ht : t.type? v = some ty) (type : NodeType) (n : Int) :
    (t.retypeAll vs type n).type? v = some type := by
  obtain ⟨row, hrow, -⟩ := Option.map_eq_some_iff.mp ht
  rw [type?, row?_retypeAll, hrow]
  simp [hv]

theorem row?_retypeAll_of_notMem {vs : List NodeId} {v : NodeId} (hv : v ∉ vs) (type : NodeType)
    (n : Int) : (t.retypeAll vs type n).row? v = t.row? v := by
  simp [row?_retypeAll, hv]

end ConsTable

/-! ## The lists of nodes -/

theorem getNodeListByType_sublist (n : Int) (type : NodeType) (rows : List NodeRow) :
    (getNodeListByType n type rows).Sublist ((rows.filter (·.type = type)).map nodeId) := by
  induction rows with
  | nil => exact List.Sublist.refl _
  | cons row rows ih =>
    rw [getNodeListByType, filter_cons]
    by_cases htype : row.type = type
    · simp only [htype, decide_true, if_true]
      split
      · split
        · exact ih.cons_cons _
        · exact ih.cons _
      · exact nil_sublist _
    · simpa [htype] using ih

namespace Context

variable {v : NodeId}

theorem nodup_nodes (ctx : Context) (type : NodeType) : (ctx.nodes type).Nodup :=
  ((getNodeListByType_sublist ..).trans (filter_sublist.map _)).nodup ctx.consensus.nodup

theorem type?_of_mem_nodes {type : NodeType} (h : v ∈ ctx.nodes type) :
    ctx.consensus.type? v = some type := by
  obtain ⟨row, hrow, rfl⟩ := mem_map.mp ((getNodeListByType_sublist ..).subset h)
  obtain ⟨hmem, htype⟩ := mem_filter.mp hrow
  rw [type?, row?_of_mem hmem]
  simpa using htype

theorem mem_nodeIds_of_mem_nodes {type : NodeType} (h : v ∈ ctx.nodes type) :
    v ∈ ctx.consensus.rows.map nodeId :=
  ((getNodeListByType_sublist ..).trans (filter_sublist.map _)).subset h

theorem disjoint_nodes (hp : v ∈ ctx.nodes .sealer) : v ∉ ctx.nodes .wSealer :=
  fun hw => by simpa [type?_of_mem_nodes hp] using type?_of_mem_nodes hw

theorem length_sealers (ctx : Context) :
    ctx.sealers.length = (ctx.nodes .sealer).length + (ctx.nodes .wSealer).length := length_append

/-- The sealers of this block that are working sealers in the table of `ctx'`. -/
def workingIn (ctx ctx' : Context) : Nat :=
  ctx.sealers.countP fun v => ctx'.consensus.type? v = some .wSealer

end Context

/-- What a rotation is to leave behind, for the configured size `E`. Nodes whose rows come into
force with a later block are no sealers of this one, and none of its business. -/
structure CommitteeKept (E : Int) (ctx ctx' : Context) : Prop where
  /-- as many working sealers as configured, or all sealers -/
  size : (ctx.workingIn ctx' : Int) = min E ctx.sealers.length
  /-- no row appears, disappears or is doubled -/
  rows : ctx'.consensus.rows.map nodeId = ctx.consensus.rows.map nodeId
  /-- the sealers are still sealers, working or pending -/
  sealers : ∀ v ∈ ctx.sealers, ctx'.consensus.type? v = some .wSealer ∨
    ctx'.consensus.type? v = some .sealer
  /-- and nothing else has changed -/
  others : ∀ v ∉ ctx.sealers, ctx'.consensus.row? v = ctx.consensus.row? v
  /-- where the size was right, as many came in as went out -/
  swapped : ((ctx.nodes .wSealer).length : Int) = min E ctx.sealers.length →
    (ctx.nodes .wSealer).countP (fun v => ctx'.consensus.type? v = some .sealer) =
      (ctx.nodes .sealer).countP fun v => ctx'.consensus.type? v = some .wSealer

/-! ## What a rotation does -/

/-- The working sealers `out` become pending, the pending sealers `into` become working. -/
structure Swap (ctx ctx' : Context) (out into : List NodeId) : Prop where
  out_nodup : out.Nodup
  out_subset : out ⊆ ctx.nodes .wSealer
  into_nodup : into.Nodup
  into_subset : into ⊆ ctx.nodes .sealer
  table : ctx'.consensus = (ctx.consensus.retypeAll out .sealer (ctx.number + 1)).retypeAll into
    .wSealer (ctx.number + 1)

theorem countP_mem_eq_length {l vs : List NodeId} (hl : l.Nodup) (hvs : vs.Nodup) (h : vs ⊆ l) :
    l.countP (· ∈ vs) = vs.length := by
  rw [countP_eq_length_filter]
  refine List.Perm.length_eq ((perm_ext_iff_of_nodup (hl.filter _) hvs).mpr fun v => ?_)
  simpa using fun hv => h hv

namespace Swap

variable {out into : List NodeId}

section

variable (h : Swap ctx ctx' out into)
include h

theorem type?_working {v : NodeId} (hv : v ∈ ctx.nodes .wSealer) :
    ctx'.consensus.type? v = if v ∈ out then some .sealer else some .wSealer := by
  have hinto : v ∉ into := fun hi => Context.disjoint_nodes (h.into_subset hi) hv
  have htype := Context.type?_of_mem_nodes hv
  rw [h.table, type?, row?_retypeAll_of_notMem hinto]
  split_ifs with hout
  · exact type?_retypeAll_of_mem hout htype _ _
  · rw [row?_retypeAll_of_notMem hout]
    exact htype

theorem type?_pending {v : NodeId} (hv : v ∈ ctx.nodes .sealer) :
    ctx'.consensus.type? v = if v ∈ into then some .wSealer else some .sealer := by
  have hout : v ∉ out := fun ho => Context.disjoint_nodes hv (h.out_subset ho)
  have htype : (ctx.consensus.retypeAll out .sealer (ctx.number + 1)).type? v = some .sealer := by
    rw [type?, row?_retypeAll_of_notMem hout]
    exact Context.type?_of_mem_nodes hv
  rw [h.table]
  split_ifs with hinto
  · exact type?_retypeAll_of_mem hinto htype _ _
  · rw [type?, row?_retypeAll_of_notMem hinto]
    exact htype

theorem countP_out :
    (ctx.nodes .wSealer).countP (fun v => ctx'.consensus.type? v = some .sealer) = out.length := by
  rw [← countP_mem_eq_length (ctx.nodup_nodes _) h.out_nodup h.out_subset]
  refine countP_congr fun v hv => ?_
  rw [h.type?_working hv]
  split <;> simp [*]

theorem countP_into :
    (ctx.nodes .sealer).countP (fun v => ctx'.consensus.type? v = some .wSealer) = into.length := by
  rw [← countP_mem_eq_length (ctx.nodup_nodes _) h.into_nodup h.into_subset]
  refine countP_congr fun v hv => ?_
  rw [h.type?_pending hv]
  split <;> simp [*]

/-- Every sealer that was working and has not gone out still is. -/
theorem workingIn_add :
    ctx.workingIn ctx' + out.length = into.length + (ctx.nodes .wSealer).length := by
  have hstay : (ctx.nodes .wSealer).countP (fun v => ctx'.consensus.type? v = some .wSealer) =
      (ctx.nodes .wSealer).countP fun v =>
        decide ¬(decide (ctx'.consensus.type? v = some .sealer)) = true := by
    refine countP_congr fun v hv => ?_
    rw [h.type?_working hv]
    split <;> simp
  have hsplit := length_eq_countP_add_countP
    (fun v => decide (ctx'.consensus.type? v = some .sealer)) (l := ctx.nodes .wSealer)
  rw [h.countP_out] at hsplit
  rw [Context.workingIn, Context.sealers, countP_append, h.countP_into]
  omega

/-- A swap keeps the committee if the numbers fit. -/
theorem committeeKept_iff {E : Int} :
    CommitteeKept E ctx ctx' ↔ (into.length + (ctx.nodes .wSealer).length : Int) =
        min E ctx.sealers.length + out.length := by
  have hadd := h.workingIn_add
  refine ⟨fun hk => ?_, fun hE => ⟨by omega, ?_, fun v hv => ?_, fun v hv => ?_, fun hsize => ?_⟩⟩
  · have := hk.size
    omega
  · rw [h.table, nodeIds_retypeAll, nodeIds_retypeAll]
  · rcases mem_append.mp hv with hp | hw
    · rw [h.type?_pending hp]
      split <;> simp
    · rw [h.type?_working hw]
      split <;> simp
  · have hinto : v ∉ into := fun hi => hv (mem_append_left _ (h.into_subset hi))
    have hout : v ∉ out := fun ho => hv (mem_append_right _ (h.out_subset ho))
    rw [h.table, row?_retypeAll_of_notMem hinto, row?_retypeAll_of_notMem hout]
  · rw [h.countP_out, h.countP_into]
    omega

end

end Swap

namespace Manager

theorem shuffle_perm (crypto : Crypto) (i v : Nat) (l : Array NodeId) :
    (shuffle crypto i v l).Perm l := by
  induction i generalizing v l with
  | zero => exact Array.Perm.refl _
  | succ i ih =>
    refine (ih _ _).trans ?_
    rw [Array.swapIfInBounds]
    split
    · split
      · exact Array.swap_perm ..
      · exact Array.Perm.refl _
    · exact Array.Perm.refl _

/-- A selection is as many of the nodes as asked for, none of them twice. -/
theorem selectNodesFromList_eq (crypto : Crypto) (proofHash : Nat) {l : List NodeId} (hl : l.Nodup)
    {k : Int} (hk : k ≤ l.length) :
    ∃ vs, selectNodesFromList crypto proofHash l k = .ok vs ∧
      vs.Nodup ∧ vs ⊆ l ∧ vs.length = k.toNat := by
  have hperm : (shuffle crypto ((l.insertionSort (· ≤ ·)).toArray.size - 1) proofHash
      (l.insertionSort (· ≤ ·)).toArray).toList.Perm l :=
    (Array.perm_iff_toList_perm.mp (shuffle_perm ..)).trans (perm_insertionSort _ _)
  rw [selectNodesFromList]
  generalize shuffle crypto _ _ _ = shuffled at hperm ⊢
  have hlen : shuffled.size = l.length := by simpa using hperm.length_eq
  refine ⟨_, if_pos (by omega), ?_, ?_, ?_⟩
  · exact (take_sublist _ _).nodup (hperm.nodup_iff.mpr hl)
  · exact fun v hv => hperm.subset (mem_of_mem_take hv)
  · rw [length_take, Array.length_toList]
    omega

end Manager

/-- Give all of some nodes a type, from the next block on. -/
def Context.retypeAll (ctx : Context) (vs : List NodeId) (type : NodeType) : Context :=
  { ctx with consensus := ctx.consensus.retypeAll vs type (ctx.number + 1) }

theorem Context.retypeAll_nil (ctx : Context) (type : NodeType) : ctx.retypeAll [] type = ctx := by
  rw [retypeAll, ConsTable.retypeAll_nil]

theorem Context.updateNodeTypes_eq (type : NodeType) {vs : List NodeId}
    (h : ∀ v ∈ vs, v ∈ ctx.consensus.rows.map nodeId) :
    ctx.updateNodeTypes type vs = .ok (ctx.retypeAll vs type) := by
  induction vs generalizing ctx with
  | nil => rw [updateNodeTypes, retypeAll_nil]
  | cons v vs ih =>
    have hv := h v mem_cons_self
    rw [updateNodeTypes, updateNodeType, if_pos hv, retypeAll, ← retypeAll_cons]
    refine ih fun u hu => ?_
    have hids : (ctx.consensus.mapRows (retype v type (ctx.number + 1))
        (by simp)).rows.map nodeId = ctx.consensus.rows.map nodeId := by
      simp [mapRows]
    rw [hids]
    exact h u (mem_cons_of_mem _ hu)

namespace Manager

/-- One half of a rotation: the nodes it retypes, if there are enough of them. -/
theorem rotateInto_eq (crypto : Crypto) (proofHash : Nat) (ctx : Context) {l : List NodeId}
    (hl : l.Nodup) (hrows : ∀ v ∈ l, v ∈ ctx.consensus.rows.map nodeId) (type : NodeType)
    {k : Int} (hk : k ≤ l.length) :
    ∃ vs, rotateInto crypto proofHash l k type ctx = .ok (ctx.retypeAll vs type) ∧
      vs.Nodup ∧ vs ⊆ l ∧ vs.length = k.toNat := by
  rw [rotateInto]
  split
  · obtain ⟨vs, hvs, hnodup, hsub, hlen⟩ := selectNodesFromList_eq crypto proofHash hl hk
    exact ⟨vs, by rw [hvs]; exact Context.updateNodeTypes_eq _ fun v hv => hrows v (hsub hv),
      hnodup, hsub, hlen⟩
  · exact ⟨[], by rw [Context.retypeAll_nil], nodup_nil, nil_subset _, by simp; omega⟩

/-! ## The rotation after its checks -/

/-- The manager once the lists have been read: the flag, the size to work with, the sealers of
the block. -/
def ready (origin : Address) (vrf : Option VRFInfo) (ctx : Context) (notify : Bool) (size : Int) :
    Manager where
  origin := origin
  vrfInfo := vrf
  pendingSealerList := ctx.nodes .sealer
  workingSealerList := ctx.nodes .wSealer
  configuredEpochSealersSize := size
  sealerListObtained := true
  notifyNextLeaderRotateSetted := notify

theorem tryToReset_frame (m : Manager) (ctx : Context) :
    (m.tryToResetNotifyNextLeaderFlag ctx).consensus = ctx.consensus ∧
      (m.tryToResetNotifyNextLeaderFlag ctx).number = ctx.number := by
  simp only [tryToResetNotifyNextLeaderFlag, Context.setSystemConfigByKey]
  split
  · split <;> exact ⟨rfl, rfl⟩
  · exact ⟨rfl, rfl⟩

variable {origin : Address} {vrf : Option VRFInfo} {notify : Bool} {size : Int}

/-- Nothing is rotated where there is but one sealer, or all are working and as many as wanted. -/
theorem rotate_idle
    (h : ctx.sealers.length ≤ 1 ∨ size = ctx.sealers.length ∧ (ctx.nodes .sealer).length = 0) :
    ∃ ctx', (ready origin vrf ctx notify size).rotate crypto info ctx = .ok ctx' ∧
      Swap ctx ctx' [] [] := by
  refine ⟨_, if_pos ?_, nodup_nil, nil_subset _, nodup_nil, nil_subset _, ?_⟩
  · simp only [sealersNum, ready, Context.sealers, length_append] at h ⊢
    omega
  · rw [retypeAll_nil, retypeAll_nil, (tryToReset_frame ..).1]

/-- A rotation that is none of those swaps as many nodes as `calNodeRotatingInfo` says, provided
there are that many. -/
theorem rotate_swaps
    (h : ¬(ctx.sealers.length ≤ 1 ∨ size = ctx.sealers.length ∧ (ctx.nodes .sealer).length = 0))
    {nri : NodeRotatingInfo} (hnri : (ready origin vrf ctx notify size).calNodeRotatingInfo = nri)
    (hout : nri.removedWorkingSealerNum ≤ (ctx.nodes .wSealer).length)
    (hinto : nri.insertedWorkingSealerNum ≤ (ctx.nodes .sealer).length) :
    ∃ ctx' out into, (ready origin vrf ctx notify size).rotate crypto info ctx = .ok ctx' ∧
      Swap ctx ctx' out into ∧ out.length = nri.removedWorkingSealerNum.toNat ∧
      into.length = nri.insertedWorkingSealerNum.toNat := by
  set m := ready origin vrf ctx notify size with hm
  set ctx₁ := m.tryToResetNotifyNextLeaderFlag ctx with hctx₁
  obtain ⟨hcons, hnum⟩ := tryToReset_frame m ctx
  have hrows {type : NodeType} (v : NodeId) (hv : v ∈ ctx.nodes type) :
      v ∈ ctx₁.consensus.rows.map nodeId := by
    rw [hcons]
    exact Context.mem_nodeIds_of_mem_nodes hv
  obtain ⟨out, hrem, hout₁, hout₂, hout₃⟩ :=
    rotateInto_eq crypto (fixedHash 32 (crypto.proofToHash info.vrfProof)) ctx₁
      (ctx.nodup_nodes .wSealer) hrows .sealer hout
  obtain ⟨into, hins, hinto₁, hinto₂, hinto₃⟩ :=
    rotateInto_eq crypto (fixedHash 32 (crypto.proofToHash info.vrfProof))
      (ctx₁.retypeAll out .sealer) (ctx.nodup_nodes .sealer) (fun v hv => by
        rw [Context.retypeAll, nodeIds_retypeAll]
        exact hrows v hv) .wSealer hinto
  refine ⟨(ctx₁.retypeAll out .sealer).retypeAll into .wSealer, out, into, ?_,
    ⟨hout₁, hout₂, hinto₁, hinto₂, ?_⟩, hout₃, hinto₃⟩
  · have hcond : ¬(m.sealersNum ≤ 1 ∨
        m.configuredEpochSealersSize = m.sealersNum ∧ m.pendingSealerList.length = 0) := by
      simp only [hm, sealersNum, ready, Context.sealers, length_append] at h ⊢
      omega
    rw [rotate, if_neg hcond, hnri]
    exact (congrArg (· >>= _) hrem).trans hins
  · rw [← hcons, ← hnum]
    rfl

/-! ## The decision and the checks -/

variable {uninit : Int}

@[simp] theorem vrfInfo_getSealerList (m : Manager) (ctx : Context) :
    (m.getSealerList ctx).vrfInfo = m.vrfInfo := by
  rw [getSealerList]
  split <;> rfl

/-- Where the size a rotation works with comes from: with the flag set, `shouldRotate` returns
before it has read the configuration. -/
theorem shouldRotate_true (h : (new origin vrf uninit).shouldRotate ctx = .ok (true, m)) :
    ∃ notify size, ctx.notifyRotate = .ok notify ∧
      (notify = true ∧ size = uninit ∨ notify = false ∧ ctx.epochSealerNum = .ok size) ∧
      m.getSealerList ctx = ready origin vrf ctx notify size := by
  obtain ⟨notify, hnotify, h⟩ := bind_eq_ok.mp h
  refine ⟨notify, ?_⟩
  cases notify with
  | true =>
    obtain ⟨-, rfl⟩ := Prod.mk.inj (ok.inj h)
    exact ⟨uninit, hnotify, .inl ⟨rfl, rfl⟩, rfl⟩
  | false =>
    obtain ⟨size, hsize, h⟩ := bind_eq_ok.mp h
    refine ⟨size, hnotify, .inr ⟨rfl, hsize⟩, ?_⟩
    dsimp only at h
    split at h
    · obtain ⟨-, rfl⟩ := Prod.mk.inj (ok.inj h)
      rfl
    · split at h
      · obtain ⟨-, rfl⟩ := Prod.mk.inj (ok.inj h)
        rfl
      · obtain ⟨num, -, h⟩ := bind_eq_ok.mp h
        split at h
        · cases h
        · obtain ⟨-, rfl⟩ := Prod.mk.inj (ok.inj h)
          rfl

theorem shouldRotate_of_notify (h : ctx.notifyRotate = .ok true) :
    ∃ m, (new origin vrf uninit).shouldRotate ctx = .ok (true, m) ∧
      m.getSealerList ctx = ready origin vrf ctx true uninit := by
  refine ⟨{ new origin vrf uninit with notifyNextLeaderRotateSetted := true }, ?_, rfl⟩
  rw [shouldRotate, h]
  rfl

/-- And so it is with too few working sealers. -/
theorem shouldRotate_of_lt (h : ctx.notifyRotate = .ok false)
    (hsize : ctx.epochSealerNum = .ok size)
    (hlt : ((ctx.nodes .wSealer).length : Int) < min size ctx.sealers.length) :
    ∃ m, (new origin vrf uninit).shouldRotate ctx = .ok (true, m) ∧
      m.getSealerList ctx = ready origin vrf ctx false size := by
  by_cases hnum : (getSysteConfigByKey ctx.sysConfig SYSTEM_KEY_RPBFT_EPOCH_SEALER_NUM
      ctx.number).2 = ctx.number
  · refine ⟨{ new origin vrf uninit with configuredEpochSealersSize := size }, ?_, rfl⟩
    rw [shouldRotate, h, ok_bind]
    refine (congrArg (· >>= _) hsize).trans ?_
    exact if_pos hnum
  · refine ⟨ready origin vrf ctx false size, ?_, rfl⟩
    rw [shouldRotate, h, ok_bind]
    refine (congrArg (· >>= _) hsize).trans ((if_neg hnum).trans (if_pos ?_))
    rw [Context.sealers, length_append] at hlt
    exact hlt

end Manager

/-- What the transaction has to bring: a VRF proof over the parent's hash, from a working sealer if
there is one. -/
structure Admits (crypto : Crypto) (origin : Address) (vrf : Option VRFInfo) (ctx : Context)
    (info : VRFInfo) : Prop where
  provided : vrf = some info
  input : fixedHash 32 info.vrfInput = ctx.hash
  publicKey : crypto.isValidPubkey info.vrfPublicKey
  proof : crypto.verify info.vrfPublicKey info.vrfInput info.vrfProof
  permitted : ctx.nodes .wSealer = [] ∨ ∃ v ∈ ctx.nodes .wSealer, crypto.toAddress v = origin

namespace Manager

variable {origin : Address} {vrf : Option VRFInfo} {notify : Bool} {size : Int}

theorem checkPermission_eq_ok {allowed : List NodeId} :
    checkPermission crypto origin allowed = .ok () ↔
      ∃ v ∈ allowed, crypto.toAddress v = origin := by
  rw [checkPermission]
  split <;> simp_all

theorem checkVRFInfos_eq_ok {m' : Manager}
    (hm : m.getSealerList ctx = ready origin vrf ctx notify size) :
    m.checkVRFInfos crypto ctx = .ok (m', info) ↔
      m' = ready origin vrf ctx notify size ∧ Admits crypto origin vrf ctx info := by
  have hvrf : m.vrfInfo = vrf := by rw [← vrfInfo_getSealerList m ctx, hm]; rfl
  rw [checkVRFInfos, hvrf, hm]
  cases vrf with
  | none => exact ⟨nofun, fun h => nomatch h.2.provided⟩
  | some i =>
    have hperm : (if (ctx.nodes .wSealer).length > 0 then
          (checkPermission crypto origin (ctx.nodes .wSealer)).map
            fun _ => (ready origin (some i) ctx notify size, i)
        else .ok (ready origin (some i) ctx notify size, i)) = .ok (m', info) ↔
        (m' = ready origin (some i) ctx notify size ∧ i = info) ∧
          (ctx.nodes .wSealer = [] ∨ ∃ v ∈ ctx.nodes .wSealer, crypto.toAddress v = origin) := by
      rw [← length_eq_zero_iff, ← checkPermission_eq_ok]
      split_ifs with hpos
      · cases checkPermission crypto origin (ctx.nodes .wSealer) with
        | error e => simpa [Except.map] using fun _ _ => length_pos_iff.mp hpos
        | ok u => simp [Except.map, eq_comm]
      · rw [Nat.eq_zero_of_not_pos hpos]
        simp [eq_comm]
    simp only [ite_error_eq_ok]
    refine ⟨fun ⟨hinput, hkey, hproof, hlast⟩ => ?_, fun ⟨hm', h⟩ => ?_⟩
    · obtain ⟨⟨rfl, rfl⟩, hpermitted⟩ := hperm.mp hlast
      exact ⟨rfl, rfl, not_not.mp hinput, by simpa using hkey, by simpa using hproof, hpermitted⟩
    · obtain rfl := Option.some.inj h.provided
      exact ⟨not_not_intro h.input, by simpa using h.publicKey, by simpa using h.proof,
        hperm.mpr ⟨⟨hm', rfl⟩, h.permitted⟩⟩

/-- A rotation that is due and admitted is `rotate`, on the lists of the block. -/
theorem rotateWorkingSealer_of_due {uninit : Int}
    (hdue : ∃ m, (new origin vrf uninit).shouldRotate ctx = .ok (true, m) ∧
      m.getSealerList ctx = ready origin vrf ctx notify size)
    (hadm : Admits crypto origin vrf ctx info)
    (h : (ready origin vrf ctx notify size).rotate crypto info ctx = .ok ctx') :
    (new origin vrf uninit).rotateWorkingSealer crypto ctx = .ok (true, ctx') := by
  obtain ⟨m, hm, hready⟩ := hdue
  simp only [rotateWorkingSealer, hm, (checkVRFInfos_eq_ok hready).mpr ⟨rfl, hadm⟩, h]
  rfl

/-- And every rotation that completes is one of those. -/
theorem rotateWorkingSealer_true {uninit : Int}
    (h : (new origin vrf uninit).rotateWorkingSealer crypto ctx = .ok (true, ctx')) :
    ∃ notify size info, ctx.notifyRotate = .ok notify ∧
      (notify = true ∧ size = uninit ∨ notify = false ∧ ctx.epochSealerNum = .ok size) ∧
      Admits crypto origin vrf ctx info ∧
      (ready origin vrf ctx notify size).rotate crypto info ctx = .ok ctx' := by
  rw [rotateWorkingSealer] at h
  split at h
  · cases h
  · cases h
  · rename_i m hm
    obtain ⟨notify, size, hnotify, hsize, hready⟩ := shouldRotate_true hm
    split at h
    · cases h
    · rename_i m' info hcheck
      obtain ⟨rfl, hadm⟩ := (checkVRFInfos_eq_ok hready).mp hcheck
      obtain ⟨ctx₁, hrot, heq⟩ := map_eq_ok.mp h
      obtain rfl := (Prod.mk.inj heq).2
      exact ⟨notify, size, info, hnotify, hsize, hadm, hrot⟩

theorem calNodeRotatingInfo_ready (h0 : 0 ≤ size) (hpos : 0 < ctx.sealers.length)
    (hworking : 0 < size + (ctx.nodes .wSealer).length) {nri : NodeRotatingInfo}
    (h : (ready origin vrf ctx notify size).calNodeRotatingInfo = nri) :
    nri.removedWorkingSealerNum ≤ (ctx.nodes .wSealer).length ∧
      nri.insertedWorkingSealerNum ≤ (ctx.nodes .sealer).length ∧
      (nri.insertedWorkingSealerNum.toNat + (ctx.nodes .wSealer).length : Int) =
        min size ctx.sealers.length + nri.removedWorkingSealerNum.toNat := by
  have hlen := ctx.length_sealers
  have hnum : (ready origin vrf ctx notify size).sealersNum = ctx.sealers.length := by
    rw [hlen]
    rfl
  have hsize : (ready origin vrf ctx notify size).configuredEpochSealersSize = size := rfl
  have hw : (ready origin vrf ctx notify size).workingSealerList = ctx.nodes .wSealer := rfl
  simp only [calNodeRotatingInfo, hsize, hw] at h
  split at h
  · subst h
    dsimp only
    omega
  split at h
  · subst h
    dsimp only
    omega
  split at h <;> subst h <;> dsimp only <;> omega

variable (crypto info origin vrf ctx notify size)

/-- A rotation among several sealers leaves the size it works with, so the committee is kept if
that is as good as the configured one. -/
theorem rotate_resizes (hmany : 2 ≤ ctx.sealers.length) (h0 : 0 ≤ size)
    (hworking : 0 < size + (ctx.nodes .wSealer).length) :
    ∃ ctx', (ready origin vrf ctx notify size).rotate crypto info ctx = .ok ctx' ∧
      ∀ E, CommitteeKept E ctx ctx' ↔
        min size ctx.sealers.length = min E ctx.sealers.length := by
  by_cases hidle : ctx.sealers.length ≤ 1 ∨
      size = ctx.sealers.length ∧ (ctx.nodes .sealer).length = 0
  · obtain ⟨ctx', hrot, hswap⟩ := rotate_idle hidle
    refine ⟨ctx', hrot, fun E => ?_⟩
    have hlen := ctx.length_sealers
    rw [hswap.committeeKept_iff]
    omega
  · obtain ⟨hout, hinto, hsum⟩ := calNodeRotatingInfo_ready h0 (by omega) hworking rfl
    obtain ⟨ctx', out, into, hrot, hswap, hlout, hlinto⟩ := rotate_swaps hidle rfl hout hinto
    refine ⟨ctx', hrot, fun E => ?_⟩
    rw [hswap.committeeKept_iff, hlinto]
    omega

theorem rotate_single (hone : ctx.sealers.length = 1) :
    ∃ ctx', (ready origin vrf ctx notify size).rotate crypto info ctx = .ok ctx' ∧
      ∀ E, 1 ≤ E → (CommitteeKept E ctx ctx' ↔ ctx.nodes .sealer = []) := by
  obtain ⟨ctx', hrot, hswap⟩ := rotate_idle (.inl hone.le)
  refine ⟨ctx', hrot, fun E hE => ?_⟩
  have hlen := ctx.length_sealers
  rw [hswap.committeeKept_iff, ← length_eq_zero_iff]
  omega

end Manager

/-! ## When the committee is kept -/

/-- An admitted rotation finds the flag clear, unless there is nothing to rotate, and a single
sealer working. -/
def Configured (crypto : Crypto) (origin : Address) (vrf : Option VRFInfo) (ctx : Context) : Prop :=
  ∀ notify info, ctx.notifyRotate = .ok notify → Admits crypto origin vrf ctx info →
    (notify = true → ctx.sealers.length ≤ 1) ∧
    (ctx.sealers.length = 1 → ctx.nodes .sealer = [])

/-- Every rotation that completes keeps the committee, whatever its manager was constructed over,
exactly if it finds the flag clear and no single sealer pending. -/
theorem rotateWorkingSealer_keeps_committee_iff (crypto : Crypto) (origin : Address)
    (vrf : Option VRFInfo) (ctx : Context) (hsealer : 0 < ctx.sealers.length) (E : Int)
    (hsize : ctx.epochSealerNum = .ok E) (hE : 1 ≤ E) :
    (∀ uninit ctx', (new origin vrf uninit).rotateWorkingSealer crypto ctx =
        .ok (true, ctx') → CommitteeKept E ctx ctx') ↔
      Configured crypto origin vrf ctx := by
  refine ⟨fun h notify info hnotify hadm => ⟨fun hflag => ?_, fun hone => ?_⟩,
    fun h uninit ctx' hrun => ?_⟩
  · -- with several sealers and the flag set, some starting value leaves another size
    subst hflag
    by_contra hmany
    obtain ⟨uninit, h0, hworking, hne⟩ : ∃ uninit : Int, 0 ≤ uninit ∧
        0 < uninit + (ctx.nodes .wSealer).length ∧
        min uninit ctx.sealers.length ≠ min E ctx.sealers.length := by
      by_cases hw : 0 < (ctx.nodes .wSealer).length
      · exact ⟨0, le_rfl, by omega, by omega⟩
      · by_cases hE1 : E = 1
        · exact ⟨2, by omega, by omega, by omega⟩
        · exact ⟨1, by omega, by omega, by omega⟩
    obtain ⟨ctx', hrot, hkept⟩ := rotate_resizes crypto ctx info origin vrf true uninit
      (by omega) h0 hworking
    exact hne ((hkept E).mp (h uninit ctx'
      (rotateWorkingSealer_of_due (shouldRotate_of_notify hnotify) hadm hrot)))
  · by_contra hpending
    obtain ⟨ctx', hrot, hkept⟩ := rotate_single crypto ctx info origin vrf notify
      (if notify then 0 else E) hone
    refine hpending ((hkept E hE).mp (h 0 ctx' (rotateWorkingSealer_of_due ?_ hadm hrot)))
    have hlen := ctx.length_sealers
    have hpos := length_pos_iff.mpr hpending
    have hlt : ((ctx.nodes .wSealer).length : Int) < min E ctx.sealers.length := by omega
    cases notify with
    | true => exact shouldRotate_of_notify hnotify
    | false => exact shouldRotate_of_lt hnotify hsize hlt
  · obtain ⟨notify, size, info, hnotify, hfrom, hadm, hrot⟩ := rotateWorkingSealer_true hrun
    obtain ⟨hflag, hsingle⟩ := h notify info hnotify hadm
    by_cases hone : ctx.sealers.length = 1
    · obtain ⟨ctx₁, hrot₁, hkept⟩ := rotate_single crypto ctx info origin vrf notify size hone
      obtain rfl := ok.inj (hrot.symm.trans hrot₁)
      exact (hkept E hE).mpr (hsingle hone)
    · obtain ⟨rfl, hE'⟩ : notify = false ∧ ctx.epochSealerNum = .ok size := by
        rcases hfrom with ⟨hset, -⟩ | hclear
        · have := hflag hset
          omega
        · exact hclear
      obtain rfl := ok.inj (hsize.symm.trans hE')
      obtain ⟨ctx₁, hrot₁, hkept⟩ := rotate_resizes crypto ctx info origin vrf false E
        (by omega) (by omega) (by omega)
      obtain rfl := ok.inj (hrot.symm.trans hrot₁)
      exact (hkept E).mpr rfl

/-- Nodes 1 and 2 are working, 3 and 4 pending, and two working sealers are configured. -/
def twoOfFour (flag : String) : Context where
  number := 10
  hash := 0
  consensus :=
    { rows := [⟨1, .wSealer, 0⟩, ⟨2, .wSealer, 0⟩, ⟨3, .sealer, 0⟩, ⟨4, .sealer, 0⟩]
      nodup := by decide }
  sysConfig := [⟨INTERNAL_SYSTEM_KEY_NOTIFY_ROTATE, flag, 10⟩,
    ⟨SYSTEM_KEY_RPBFT_EPOCH_SEALER_NUM, "2", 0⟩]
  stateStorage := [⟨SYSTEM_KEY_RPBFT_EPOCH_BLOCK_NUM, "5", 0⟩]

/-- A VRF library that accepts everything, and node ids for addresses. -/
def trusting : Crypto where
  isValidPubkey _ := true
  verify _ _ _ := true
  proofToHash _ := ""
  hash s := s.length
  toAddress := Fin.ofNat _

/-- The rotation of node 1, by a manager over the value `uninit`. -/
def rotationOfOne (uninit : Int) (ctx : Context) : Except (Fault × Context) (Bool × Context) :=
  (new 1 (some ⟨"", "", ""⟩) uninit).rotateWorkingSealer trusting ctx

/-- At the end of an epoch one working sealer is replaced. -/
theorem twoOfFour_kept :
    ((rotationOfOne 0 (twoOfFour "0")).toOption.map fun r =>
      (r.1, (twoOfFour "0").workingIn r.2)) = some (true, 2) ∧
    ∀ uninit ctx', rotationOfOne uninit (twoOfFour "0") = .ok (true, ctx') →
      CommitteeKept 2 (twoOfFour "0") ctx' := by
  refine ⟨by decide +kernel, ?_⟩
  refine (rotateWorkingSealer_keeps_committee_iff trusting 1 _ (twoOfFour "0") (by decide +kernel) 2
    (by decide +kernel) (by decide)).mpr
      fun notify info hnotify _ => ⟨fun hflag => ?_, fun hone => ?_⟩
  · have hclear : (twoOfFour "0").notifyRotate = .ok false := by decide +kernel
    exact absurd (hflag ▸ hnotify.symm.trans hclear) (by decide)
  · exact absurd hone (by decide +kernel)

/-- After the leader before has failed, the rotation works with a size nobody has configured: over
memory that held a one, it leaves a single working sealer where there are to be two. -/
theorem flagged_rotation_shrinks :
    (twoOfFour "1").sealers.length = 4 ∧ (twoOfFour "1").epochSealerNum = .ok 2 ∧
    ∃ ctx', rotationOfOne 1 (twoOfFour "1") = .ok (true, ctx') ∧
      (twoOfFour "1").workingIn ctx' = 1 ∧ ¬CommitteeKept 2 (twoOfFour "1") ctx' := by
  refine ⟨by decide +kernel, by decide +kernel, ?_⟩
  have hrun : ((rotationOfOne 1 (twoOfFour "1")).toOption.map fun r =>
      (r.1, (twoOfFour "1").workingIn r.2)) = some (true, 1) := by decide +kernel
  obtain ⟨⟨rotated, ctx'⟩, hok, hr⟩ := Option.map_eq_some_iff.mp hrun
  obtain ⟨rfl, hone⟩ := Prod.mk.inj hr
  refine ⟨ctx', ?_, hone, fun hk => ?_⟩
  · cases hcase : rotationOfOne 1 (twoOfFour "1") with
    | error e => simp [hcase, Except.toOption] at hok
    | ok r => simpa [hcase, Except.toOption] using hok
  · have hsize := hk.size
    rw [hone] at hsize
    exact absurd hsize (by decide +kernel)

end Rcc.Precompiled
