-- SUMMARY: How the connection tables of NP signaling agree with each other, and which activations make them disagree.
import W7PS4.Lib.Reaches
import W7PS4.NpSignaling.Operations

/-!
# Agreement of the tables

A connection stands in two tables, under its id and under its context and peer, and its
status repeats its state. Connections are looked up by the peer's NP id when the game
activates them, and by the online id in it when a packet arrives. Two activations spoil the
agreement: `sceNpSignalingActivateConnectionA` leaves the second table and the state alone,
and an NP id may differ from that of a connection there is although its online id does not.
-/

namespace NpSignaling

/-! ## Online ids -/

/-- Padding with zeros does not change what an id reads as. -/
theorem idString_setNpOnlineId (src : List UInt8) : onlineIdToString (setNpOnlineId src) = idString src := by
  unfold onlineIdToString idString setNpOnlineId
  simp only
  by_cases hlong : onlineIdMaxLength ≤ src.length
  · rw [Nat.sub_eq_zero_of_le hlong, List.replicate_zero, List.append_nil, List.take_take, Nat.min_self]
  have hshort : src.length ≤ onlineIdMaxLength := Nat.le_of_not_le hlong
  have hlength : (src ++ List.replicate (onlineIdMaxLength - src.length) (0 : UInt8)).length ≤
      onlineIdMaxLength := by
    rw [List.length_append, List.length_replicate]
    omega
  rw [List.take_of_length_le hshort, List.take_of_length_le hlength, List.takeWhile_append]
  split
  · next hall =>
    have hzeros : (List.replicate (onlineIdMaxLength - src.length) (0 : UInt8)).takeWhile (· ≠ 0) = [] := by
      cases onlineIdMaxLength - src.length with
      | zero => rfl
      | succ n => rfl
    rw [hzeros, List.append_nil]
    exact ((List.takeWhile_prefix _).eq_of_length hall).symm
  · rfl

/-! ## One connection -/

namespace ConnectionInfo

/-- A change that keeps who the connection is for, and its status in step with its state. -/
structure Keeps (ci ci' : ConnectionInfo) : Prop where
  connId : ci'.connId = ci.connId
  ctxId : ci'.ctxId = ci.ctxId
  npid : ci'.npid = ci.npid
  onlineId : ci'.onlineId = ci.onlineId
  status : ci.status = statusFromState ci.state → ci'.status = statusFromState ci'.state
  live : ci.state ≠ .inactive → ci'.state ≠ .inactive
  deadFired : ci'.deadFired = ci.deadFired

variable {ci ci' ci'' : ConnectionInfo} {active : Bool}

theorem Keeps.refl : ci.Keeps ci := ⟨rfl, rfl, rfl, rfl, id, id, rfl⟩

theorem Keeps.trans (h : ci.Keeps ci') (h' : ci'.Keeps ci'') : ci.Keeps ci'' where
  connId := h'.connId.trans h.connId
  ctxId := h'.ctxId.trans h.ctxId
  npid := h'.npid.trans h.npid
  onlineId := h'.onlineId.trans h.onlineId
  status := h'.status ∘ h.status
  live := h'.live ∘ h.live
  deadFired := h'.deadFired.trans h.deadFired

theorem Stays.keeps (h : ci.Stays ci') : ci.Keeps ci' := by
  have hfixed := h.fixed
  simp only [ConnectionInfo.fixed, Prod.mk.injEq] at hfixed
  obtain ⟨⟨-, hconnId, hctxId, hnpid, honlineId⟩, -, -, hdead, -⟩ := hfixed
  exact ⟨hconnId, hctxId, hnpid, honlineId, h.status, h.live, hdead⟩

theorem keeps_establish {hint : Bool} : ci.Keeps (ci.establish active hint now).1 := by
  have hhinted : ci.Keeps (if hint then { ci with peerActivated := true } else ci) := by
    split
    · exact ⟨rfl, rfl, rfl, rfl, id, id, rfl⟩
    · exact .refl
  unfold ConnectionInfo.establish
  simp only
  generalize (if hint then { ci with peerActivated := true } else ci) = hinted at hhinted ⊢
  refine hhinted.trans ?_
  have hfirst : hinted.Keeps
      (if (!hinted.establishedFired) = true then hinted.firstEstablished active now else hinted) := by
    split
    · exact stays_firstEstablished.keeps
    · exact .refl
  exact hfirst.trans ⟨rfl, rfl, rfl, rfl, id, id, rfl⟩

end ConnectionInfo

/-! ## Agreement -/

namespace Signaling

structure TablesAgree (s : Signaling) : Prop where
  index : ∀ ctxId npid c, s.npidToConn (ctxId, npid) = some c ↔
    ∃ ci, s.connections.find? c = some ci ∧ ci.ctxId = ctxId ∧ ci.npid = npid
  onePerPeer : ∀ c c' ci ci', s.connections.find? c = some ci → s.connections.find? c' = some ci' →
    ci.ctxId = ci'.ctxId → onlineIdToString ci.onlineId = onlineIdToString ci'.onlineId →
    ci.state ≠ .inactive → ci'.state ≠ .inactive → c = c'
  ids : ∀ c ci, s.connections.find? c = some ci → 1 ≤ c ∧ c ≤ 0x7fff ∧ ci.connId = c
  contexts : ∀ c ci, s.connections.find? c = some ci → (s.contexts.find? ci.ctxId).isSome
  status : ∀ c ci, s.connections.find? c = some ci → ci.status = statusFromState ci.state

/-- What every operation keeps. `starting` is a connection that a packet has created and whose handshake
    has not started yet; 0 stands for none. -/
structure Consistent (s : Signaling) (starting : Int) : Prop where
  index : ∀ ctxId npid c, s.npidToConn (ctxId, npid) = some c ↔
    ∃ ci, s.connections.find? c = some ci ∧ ci.ctxId = ctxId ∧ ci.npid = npid
  peers : ∀ c c' ci ci', s.connections.find? c = some ci → s.connections.find? c' = some ci' →
    ci.ctxId = ci'.ctxId → onlineIdToString ci.onlineId = onlineIdToString ci'.onlineId → c = c'
  ids : ∀ c ci, s.connections.find? c = some ci → 1 ≤ c ∧ c ≤ 0x7fff ∧ ci.connId = c
  contexts : ∀ c ci, s.connections.find? c = some ci → (s.contexts.find? ci.ctxId).isSome
  status : ∀ c ci, s.connections.find? c = some ci → ci.status = statusFromState ci.state
  handle : ∀ c ci, s.connections.find? c = some ci → ci.npid.handle = ci.onlineId
  alive : ∀ c ci, s.connections.find? c = some ci → ci.deadFired = false ∧ (c ≠ starting → ci.state ≠ .inactive)
  seed : s.connectionIdSeed ≤ 0x7fff

variable {s s' : Signaling} {connId starting : Int} {ci : ConnectionInfo}

theorem Consistent.tablesAgree (hs : s.Consistent starting) : s.TablesAgree where
  index := hs.index
  onePerPeer := fun c c' ci ci' hfind hfind' hctx hid _ _ => hs.peers c c' ci ci' hfind hfind' hctx hid
  ids := hs.ids
  contexts := hs.contexts
  status := hs.status

theorem Consistent.congr (hs : s.Consistent starting) (h : s'.toSignalingTables = s.toSignalingTables) :
    s'.Consistent starting := by
  refine ⟨?_, ?_, ?_, ?_, ?_, ?_, ?_, ?_⟩
  all_goals rw [h]
  · exact hs.index
  · exact hs.peers
  · exact hs.ids
  · exact hs.contexts
  · exact hs.status
  · exact hs.handle
  · exact hs.alive
  · exact hs.seed

variable {f : ConnectionInfo → ConnectionInfo} {fromAddr fromPort : Nat} {now : Int} {ctxId : Int}
  {pkt : SignalingControl} {rnd : Nat} {npid : OrbisNpId}

/-- Every connection after the change comes from one before it. -/
theorem find?_modify_keeps (hf : ∀ ci, s.connections.find? connId = some ci → ci.Keeps (f ci)) {c : Int}
    (hfind : (s.modifyConnection connId f).connections.find? c = some ci) :
    ∃ ci', s.connections.find? c = some ci' ∧ ci'.Keeps ci := by
  obtain ⟨hold, -⟩ | ⟨ci', rfl, hold, rfl⟩ := find?_modifyConnection_eq_some hfind
  · exact ⟨ci, hold, .refl⟩
  · exact ⟨ci', hold, hf ci' hold⟩

theorem find?_modify_kept (hf : ∀ ci, s.connections.find? connId = some ci → ci.Keeps (f ci)) {c : Int}
    (hfind : s.connections.find? c = some ci) :
    ∃ ci', (s.modifyConnection connId f).connections.find? c = some ci' ∧ ci.Keeps ci' := by
  rw [find?_modifyConnection]
  by_cases hc : c = connId
  · subst hc
    exact ⟨f ci, by rw [if_pos rfl, hfind, Option.map_some], hf ci hfind⟩
  · exact ⟨ci, by rw [if_neg hc, hfind], .refl⟩

theorem Consistent.modify (hs : s.Consistent starting)
    (hf : ∀ ci, s.connections.find? connId = some ci → ci.Keeps (f ci)) :
    (s.modifyConnection connId f).Consistent starting where
  index := fun ctxId npid c => by
    refine (hs.index ctxId npid c).trans ⟨?_, ?_⟩
    · rintro ⟨ci, hfind, rfl, rfl⟩
      obtain ⟨ci', hfind', hkeeps⟩ := find?_modify_kept hf hfind
      exact ⟨ci', hfind', hkeeps.ctxId, hkeeps.npid⟩
    · rintro ⟨ci, hfind, rfl, rfl⟩
      obtain ⟨ci', hfind', hkeeps⟩ := find?_modify_keeps hf hfind
      exact ⟨ci', hfind', hkeeps.ctxId.symm, hkeeps.npid.symm⟩
  peers := fun c c' ci ci' hfind hfind' hctx hid => by
    obtain ⟨old, hold, hkeeps⟩ := find?_modify_keeps hf hfind
    obtain ⟨old', hold', hkeeps'⟩ := find?_modify_keeps hf hfind'
    rw [hkeeps.ctxId, hkeeps'.ctxId] at hctx
    rw [hkeeps.onlineId, hkeeps'.onlineId] at hid
    exact hs.peers c c' old old' hold hold' hctx hid
  ids := fun c ci hfind => by
    obtain ⟨old, hold, hkeeps⟩ := find?_modify_keeps hf hfind
    rw [hkeeps.connId]
    exact hs.ids c old hold
  contexts := fun c ci hfind => by
    obtain ⟨old, hold, hkeeps⟩ := find?_modify_keeps hf hfind
    rw [hkeeps.ctxId]
    exact hs.contexts c old hold
  status := fun c ci hfind => by
    obtain ⟨old, hold, hkeeps⟩ := find?_modify_keeps hf hfind
    exact hkeeps.status (hs.status c old hold)
  handle := fun c ci hfind => by
    obtain ⟨old, hold, hkeeps⟩ := find?_modify_keeps hf hfind
    rw [hkeeps.npid, hkeeps.onlineId]
    exact hs.handle c old hold
  alive := fun c ci hfind => by
    obtain ⟨old, hold, hkeeps⟩ := find?_modify_keeps hf hfind
    obtain ⟨hdead, hlive⟩ := hs.alive c old hold
    exact ⟨hkeeps.deadFired.trans hdead, fun hc => hkeeps.live (hlive hc)⟩
  seed := hs.seed

/-- Replace a connection by one it keeps. -/
theorem Consistent.replace (hs : s.Consistent starting) {ci' : ConnectionInfo}
    (hfind : s.connections.find? connId = some ci) (hkeeps : ci.Keeps ci') :
    (s.modifyConnection connId fun _ => ci').Consistent starting := by
  refine hs.modify fun ci'' hfind' => ?_
  obtain rfl := Option.some.inj (hfind.symm.trans hfind')
  exact hkeeps

theorem removeConnectionLocked_rest :
    (s.removeConnectionLocked connId).contexts = s.contexts ∧
      (s.removeConnectionLocked connId).connectionIdSeed = s.connectionIdSeed := by
  unfold removeConnectionLocked
  split <;> exact ⟨rfl, rfl⟩

theorem Consistent.remove (hs : s.Consistent starting) : (s.removeConnectionLocked connId).Consistent starting := by
  have hrest := @removeConnectionLocked_rest s connId
  refine ⟨fun ctxId npid c => ?_, ?_, ?_, ?_, ?_, ?_, ?_, ?_⟩
  · unfold removeConnectionLocked
    cases hfind : s.connections.find? connId with
    | none => exact hs.index ctxId npid c
    | some ci =>
      have hindexed : s.npidToConn (ci.ctxId, ci.npid) = some connId := (hs.index _ _ _).mpr ⟨ci, hfind, rfl, rfl⟩
      simp only [if_pos hindexed, StdMap.find?_erase]
      by_cases hkey : (ctxId, npid) = (ci.ctxId, ci.npid)
      · obtain ⟨rfl, rfl⟩ := Prod.mk.inj hkey
        rw [Function.update_self]
        refine ⟨nofun, ?_⟩
        rintro ⟨ci', hfind', hctx, hnpid⟩
        split at hfind'
        · cases hfind'
        · next hne =>
          have hsame := (hs.index ci.ctxId ci.npid c).mpr ⟨ci', hfind', hctx, hnpid⟩
          exact absurd (Option.some.inj (hsame.symm.trans hindexed)) hne
      · rw [Function.update_of_ne hkey, hs.index]
        constructor
        · rintro ⟨ci', hfind', rfl, rfl⟩
          have hne : c ≠ connId := by
            rintro rfl
            obtain rfl := Option.some.inj (hfind.symm.trans hfind')
            exact hkey rfl
          exact ⟨ci', by rw [if_neg hne, hfind'], rfl, rfl⟩
        · rintro ⟨ci', hfind', rfl, rfl⟩
          split at hfind'
          · cases hfind'
          · exact ⟨ci', hfind', rfl, rfl⟩
  · intro c c' ci ci' hfind hfind'
    exact hs.peers c c' ci ci' (find?_of_removeConnectionLocked hfind).2 (find?_of_removeConnectionLocked hfind').2
  · exact fun c ci hfind => hs.ids c ci (find?_of_removeConnectionLocked hfind).2
  · rw [hrest.1]
    exact fun c ci hfind => hs.contexts c ci (find?_of_removeConnectionLocked hfind).2
  · exact fun c ci hfind => hs.status c ci (find?_of_removeConnectionLocked hfind).2
  · exact fun c ci hfind => hs.handle c ci (find?_of_removeConnectionLocked hfind).2
  · exact fun c ci hfind => hs.alive c ci (find?_of_removeConnectionLocked hfind).2
  · rw [hrest.2]
    exact hs.seed

theorem Consistent.close (hs : s.Consistent starting) (errorCode : EventData) :
    (s.closeConnectionAndDispatchDead connId errorCode).Consistent starting := by
  by_cases hlive : ∃ ci, s.connections.find? connId = some ci ∧ ¬(ci.state = .inactive ∨ ci.deadFired)
  · obtain ⟨ci, hfind, hlive⟩ := hlive
    exact hs.remove.congr (closeConnectionAndDispatchDead_of_live hfind hlive errorCode)
  rw [closeConnectionAndDispatchDead_of_not_live]
  · exact hs
  · intro ci hfind
    by_contra hnot
    exact hlive ⟨ci, hfind, hnot⟩

/-! ## New connections -/

/-- The id that is found is free, and the seed stays in the range of ids. -/
theorem findConnectionId_spec (s : Signaling) : ∀ tries seed, seed ≤ 0x7fff →
    (s.findConnectionId tries seed).2 ≤ 0x7fff ∧ ∀ connId, (s.findConnectionId tries seed).1 = some connId →
      1 ≤ connId ∧ connId ≤ 0x7fff ∧ s.connections.find? (connId : Int) = none
  | 0, seed, hseed => ⟨hseed, nofun⟩
  | tries + 1, seed, hseed => by
    have hnext : (if seed + 1 > 0x7fff then 1 else seed + 1) ≤ 0x7fff := by
      split <;> omega
    unfold findConnectionId
    simp only
    split
    · next hfree =>
      refine ⟨hnext, fun connId hfound => ?_⟩
      cases hfound
      exact ⟨Nat.one_le_iff_ne_zero.mpr hfree.1, hseed, Option.isNone_iff_eq_none.mp hfree.2⟩
    · exact findConnectionId_spec s tries _ hnext

theorem allocateConnectionIdLocked_spec (hseed : s.connectionIdSeed ≤ 0x7fff) (rnd : Nat) :
    (s.allocateConnectionIdLocked rnd).2.connectionIdSeed ≤ 0x7fff ∧
      ∀ connId, (s.allocateConnectionIdLocked rnd).1 = some connId →
        1 ≤ connId ∧ connId ≤ 0x7fff ∧ s.connections.find? connId = none := by
  have hstart : (if s.connectionIdSeed = 0 then
      (if rnd / 0x4001 % 0x8000 = 0 then 1 else rnd / 0x4001 % 0x8000) else s.connectionIdSeed) ≤ 0x7fff := by
    split
    · split <;> omega
    · exact hseed
  obtain ⟨hnext, hfound⟩ := findConnectionId_spec s 0x10000 _ hstart
  refine ⟨hnext, fun connId hsome => ?_⟩
  obtain ⟨n, hn, rfl⟩ := Option.map_eq_some_iff.mp hsome
  obtain ⟨hpos, hle, hfree⟩ := hfound n hn
  exact ⟨by omega, by omega, hfree⟩

theorem Consistent.allocate (hs : s.Consistent starting) (rnd : Nat) :
    (s.allocateConnectionIdLocked rnd).2.Consistent starting :=
  ⟨hs.index, hs.peers, hs.ids, hs.contexts, hs.status, hs.handle, hs.alive,
    (allocateConnectionIdLocked_spec hs.seed rnd).1⟩

/-- What a new connection must be like. -/
structure Fresh (s : Signaling) (connId starting : Int) (ci : ConnectionInfo) : Prop where
  free : s.connections.find? connId = none
  id : 1 ≤ connId ∧ connId ≤ 0x7fff ∧ ci.connId = connId
  context : (s.contexts.find? ci.ctxId).isSome
  status : ci.status = statusFromState ci.state
  handle : ci.npid.handle = ci.onlineId
  alive : ci.deadFired = false ∧ (connId ≠ starting → ci.state ≠ .inactive)
  peer : ∀ c ci', s.connections.find? c = some ci' → ci'.ctxId = ci.ctxId →
    onlineIdToString ci'.onlineId ≠ onlineIdToString ci.onlineId

/-- A connection is entered in both tables. -/
theorem Consistent.insert (hs : s.Consistent 0) (hfresh : s.Fresh connId starting ci) :
    ((s.insertConnection connId ci).setNpidToConn (ci.ctxId, ci.npid) connId).Consistent starting := by
  have hfind : ∀ {c ci'}, (s.insertConnection connId ci).connections.find? c = some ci' →
      c = connId ∧ ci' = ci ∨ c ≠ connId ∧ s.connections.find? c = some ci' := by
    intro c ci' hfind
    rw [find?_insertConnection] at hfind
    split at hfind
    · next hc => exact .inl ⟨hc, (Option.some.inj hfind).symm⟩
    · next hc => exact .inr ⟨hc, hfind⟩
  refine ⟨fun ctxId npid c => ?_, fun c c' ci₁ ci₂ h₁ h₂ hctx hid => ?_, fun c ci' h => ?_, fun c ci' h => ?_,
    fun c ci' h => ?_, fun c ci' h => ?_, fun c ci' h => ?_, hs.seed⟩
  · show Function.update s.npidToConn (ci.ctxId, ci.npid) (some connId) (ctxId, npid) = some c ↔ _
    by_cases hkey : (ctxId, npid) = (ci.ctxId, ci.npid)
    · obtain ⟨rfl, rfl⟩ := Prod.mk.inj hkey
      rw [Function.update_self]
      constructor
      · intro h
        cases h
        exact ⟨ci, find?_insertConnection.trans (if_pos rfl), rfl, rfl⟩
      · rintro ⟨ci', h, hctx, hnpid⟩
        obtain ⟨rfl, -⟩ | ⟨-, hold⟩ := hfind h
        · rfl
        · refine absurd ?_ (hfresh.peer c ci' hold hctx)
          rw [← hs.handle c ci' hold, ← hfresh.handle, hnpid]
    · rw [Function.update_of_ne hkey, hs.index]
      constructor
      · rintro ⟨ci', hold, rfl, rfl⟩
        have hne : c ≠ connId := by
          rintro rfl
          rw [hfresh.free] at hold
          cases hold
        exact ⟨ci', find?_insertConnection.trans ((if_neg hne).trans hold), rfl, rfl⟩
      · rintro ⟨ci', h, rfl, rfl⟩
        obtain ⟨-, rfl⟩ | ⟨-, hold⟩ := hfind h
        · exact absurd rfl hkey
        · exact ⟨ci', hold, rfl, rfl⟩
  · obtain ⟨rfl, rfl⟩ | ⟨-, hold₁⟩ := hfind h₁
    · obtain ⟨rfl, -⟩ | ⟨-, hold₂⟩ := hfind h₂
      · rfl
      · exact absurd hid.symm (hfresh.peer c' ci₂ hold₂ hctx.symm)
    · obtain ⟨rfl, rfl⟩ | ⟨-, hold₂⟩ := hfind h₂
      · exact absurd hid (hfresh.peer c ci₁ hold₁ hctx)
      · exact hs.peers c c' ci₁ ci₂ hold₁ hold₂ hctx hid
  · obtain ⟨rfl, rfl⟩ | ⟨-, hold⟩ := hfind h
    · exact hfresh.id
    · exact hs.ids c ci' hold
  · obtain ⟨rfl, rfl⟩ | ⟨-, hold⟩ := hfind h
    · exact hfresh.context
    · exact hs.contexts c ci' hold
  · obtain ⟨rfl, rfl⟩ | ⟨-, hold⟩ := hfind h
    · exact hfresh.status
    · exact hs.status c ci' hold
  · obtain ⟨rfl, rfl⟩ | ⟨-, hold⟩ := hfind h
    · exact hfresh.handle
    · exact hs.handle c ci' hold
  · obtain ⟨rfl, rfl⟩ | ⟨-, hold⟩ := hfind h
    · exact hfresh.alive
    · obtain ⟨hdead, hlive⟩ := hs.alive c ci' hold
      refine ⟨hdead, fun _ => hlive ?_⟩
      have := (hs.ids c ci' hold).1
      omega

/-! ## Sections and operations -/

theorem Consistent.establishConnection (hs : s.Consistent starting) (hint : Bool) (now : Int) :
    (s.establishConnection connId hint now).Consistent starting := by
  have hsection : (s.establish connId hint now).1.Consistent starting := by
    unfold Signaling.establish
    split
    · exact hs
    rename_i ci hfind
    simp only
    split
    · exact (hs.replace hfind ConnectionInfo.keeps_establish).congr (sendToPeer_tables _)
    · exact hs.replace hfind ConnectionInfo.keeps_establish
  exact hsection.congr establishConnection_tables

theorem Consistent.deactivateFaithful (hs : s.Consistent starting) :
    (s.deactivateConnectionFaithful connId).Consistent starting := by
  unfold deactivateConnectionFaithful deactivate
  split
  · exact hs
  split
  · exact hs
  split
  · have hlingering : (s.modifyConnection connId (·.linger s.calloutCtxActive)).Consistent starting :=
      hs.modify fun _ _ => ConnectionInfo.stays_linger.keeps
    exact hlingering.congr (modifyConnection_congr (sendControlCloseLocked_tables _) _)
  simp only
  split
  · exact hs.close _
  · exact hs

theorem Consistent.terminateFaithful (hs : s.Consistent starting) :
    (s.terminateConnectionFaithful connId).Consistent starting := by
  have hsent : (s.sendTerminate connId).Consistent starting := by
    unfold sendTerminate
    split
    · exact hs
    · exact hs.congr (sendControlCloseLocked_tables _)
  exact hsent.close _

theorem Consistent.timeout (hs : s.Consistent starting) : (s.timeoutCalloutHandler connId).Consistent starting := by
  unfold timeoutCalloutHandler timeoutExpired
  split
  · exact hs
  have hcancelled : (s.modifyConnection connId (·.cancelTimeoutCalloutLocked)).Consistent starting :=
    hs.modify fun _ _ => ConnectionInfo.stays_cancelTimeout.keeps
  simp only
  split
  · exact hcancelled.close _
  · exact hcancelled

theorem Consistent.stepExpired (hs : s.Consistent starting) (now : Int) :
    (s.stepCalloutHandler connId now).Consistent starting := by
  have hsection : (s.stepExpired connId now).1.Consistent starting := by
    unfold Signaling.stepExpired
    split
    · exact hs
    rename_i ci hfind
    have hstepped : (s.modifyConnection connId fun _ =>
        (ci.stepped s.calloutCtxActive now).1).Consistent starting :=
      hs.replace hfind ConnectionInfo.stays_stepped.keeps
    simp only
    split
    · exact hstepped.congr (sendHandshakeLocked_tables _)
    · exact hstepped
  unfold stepCalloutHandler
  simp only
  split
  · exact hsection.close _
  · exact hsection

theorem Consistent.startHandshake (hs : s.Consistent starting) :
    (s.startHandshakeInitiator connId).Consistent starting :=
  (hs.modify fun _ _ => ConnectionInfo.stays_startHandshake.keeps).congr startHandshakeInitiator_tables

theorem Consistent.handshakePacket (hs : s.Consistent starting) {pkt : SignalingHandshake} :
    (s.handleHandshakePacket fromAddr fromPort pkt connId now).Consistent starting := by
  have hreceived : (s.receiveHandshake fromAddr fromPort pkt connId now).1.Consistent starting := by
    unfold Signaling.receiveHandshake
    split
    · exact hs
    rename_i ci hfind
    have hheard : ci.Keeps { ci with lastPeerRxUs := now } := ⟨rfl, rfl, rfl, rfl, id, id, rfl⟩
    cases pkt.kind with
    | offer => exact hs.replace hfind (hheard.trans ConnectionInfo.stays_offered.keeps)
    | accept => exact hs.replace hfind (hheard.trans ConnectionInfo.stays_accepted.keeps)
    | check => exact hs.replace hfind (hheard.trans ConnectionInfo.stays_checked.keeps)
    | checkAck => exact hs.replace hfind hheard
    | unknown => exact hs.replace hfind hheard
  unfold handleHandshakePacket
  generalize s.receiveHandshake fromAddr fromPort pkt connId now = r at hreceived
  obtain ⟨s₁, reply, establishes⟩ := r
  have hdone : ∀ s₂ : Signaling, s₂.Consistent starting →
      (if establishes then s₂.establishConnection connId true now else s₂).Consistent starting := by
    intro s₂ hs₂
    split
    · exact hs₂.establishConnection true now
    · exact hs₂
  cases reply with
  | none => exact hdone s₁ hreceived
  | some reply =>
    refine hdone (s₁.sendReply connId reply) ?_
    unfold sendReply
    split
    · exact hreceived
    · exact hreceived.congr (sendHandshakeLocked_tables _)

/-! ## Control packets -/

/-- While no handshake is to start, every connection is alive. -/
theorem Consistent.live (hs : s.Consistent 0) (hfind : s.connections.find? connId = some ci) :
    ci.state ≠ .inactive := by
  have hpos := (hs.ids connId ci hfind).1
  exact (hs.alive connId ci hfind).2 (by omega)

theorem Consistent.started (hs : s.Consistent connId) : (s.startHandshakeInitiator connId).Consistent 0 := by
  have hkept : (s.startHandshakeInitiator connId).Consistent connId := hs.startHandshake
  refine ⟨hkept.index, hkept.peers, hkept.ids, hkept.contexts, hkept.status, hkept.handle, fun c ci hfind => ?_,
    hkept.seed⟩
  refine ⟨(hkept.alive c ci hfind).1, fun _ => ?_⟩
  by_cases hc : c = connId
  · rw [startHandshakeInitiator_tables] at hfind
    obtain ⟨-, hne⟩ | ⟨old, -, -, rfl⟩ := find?_modifyConnection_eq_some hfind
    · exact absurd hc hne
    · have hoffer : (old.setConnStateLocked .sendingOffer).state ≠ .inactive := nofun
      exact ConnectionInfo.stays_armHandshakeCallouts.live hoffer
  · exact (hkept.alive c ci hfind).2 hc

theorem Consistent.createAnswerer (hs : s.Consistent 0)
    (hnone : s.FindsPeer (idString pkt.onlineIdFrom) 0) (howner : s.FindsOwner (idString pkt.onlineIdTo) ctxId) :
    (s.createAnswerer pkt ctxId rnd).2.Consistent ((s.createAnswerer pkt ctxId rnd).1.getD 0) ∧
      ∀ connId, (s.createAnswerer pkt ctxId rnd).1 = some connId →
        ∃ ci, (s.createAnswerer pkt ctxId rnd).2.connections.find? connId = some ci ∧ ci.state = .inactive := by
  unfold Signaling.createAnswerer
  split
  · exact ⟨hs, nofun⟩
  rename_i hctx
  unfold FindsOwner at howner
  rw [if_neg hctx] at howner
  obtain ⟨ctx, hctxFind, -⟩ := howner
  have hallocated := hs.allocate rnd
  have hspec := (allocateConnectionIdLocked_spec hs.seed rnd).2
  have hsame : ∀ r, s.allocateConnectionIdLocked rnd = r →
      r.2.connections = s.connections ∧ r.2.contexts = s.contexts := by
    rintro r rfl
    exact ⟨rfl, rfl⟩
  split
  · next heq =>
    rw [heq] at hallocated
    exact ⟨hallocated, nofun⟩
  rename_i connId s' heq
  obtain ⟨hconnections, hcontexts⟩ := hsame _ heq
  rw [heq] at hallocated hspec
  obtain ⟨hpos, hle, hfree⟩ := hspec connId rfl
  simp only at hconnections hcontexts
  have hfresh : s'.Fresh connId connId
      (ConnectionInfo.createAnswerer s'.nextSerial connId ctxId pkt.onlineIdFrom) := by
    refine ⟨?_, ⟨hpos, hle, rfl⟩, ?_, rfl, rfl, ⟨rfl, fun h => absurd rfl h⟩, ?_⟩
    · rw [hconnections]
      exact hfree
    · show (s'.contexts.find? ctxId).isSome
      rw [hcontexts, hctxFind]
      rfl
    intro c ci hfind _ hid
    rw [hconnections] at hfind
    have hnot := hnone (c, ci) (StdMap.mem_entries_iff.mpr hfind)
    refine hnot ⟨?_, ?_⟩
    · rintro (h | h)
      · exact hs.live hfind h
      · exact absurd ((hs.alive c ci hfind).1.symm.trans h) Bool.false_ne_true
    · have hread : onlineIdToString ci.onlineId = idString pkt.onlineIdFrom :=
        hid.trans (idString_setNpOnlineId pkt.onlineIdFrom)
      unfold onlineIdEqualsString
      rw [hread]
      exact beq_self_eq_true _
  refine ⟨Consistent.insert hallocated hfresh, fun c hc => ?_⟩
  cases hc
  exact ⟨_, find?_insertConnection.trans (if_pos rfl), rfl⟩

theorem Consistent.answerRequest (hs : s.Consistent starting) :
    (s.answerRequest fromAddr fromPort pkt connId).1.Consistent starting := by
  unfold Signaling.answerRequest
  split
  · exact hs
  · next ci hfind => exact (hs.replace hfind ConnectionInfo.stays_requested.keeps).congr (sendToPeer_tables _)

/-- Either every connection is alive, or the handshake of a new one is what comes next. -/
theorem Consistent.receiveControl (hs : s.Consistent 0) (hpeer : s.FindsPeer (idString pkt.onlineIdFrom) connId)
    (howner : s.FindsOwner (idString pkt.onlineIdTo) ctxId) :
    (s.receiveControl fromAddr fromPort pkt connId ctxId rnd).1.Consistent 0 ∨
      (s.receiveControl fromAddr fromPort pkt connId ctxId rnd).1.Consistent
          (s.receiveControl fromAddr fromPort pkt connId ctxId rnd).2.1 ∧
        (s.receiveControl fromAddr fromPort pkt connId ctxId rnd).2.2 = .startHandshake := by
  unfold Signaling.receiveControl
  cases pkt.kind with
  | activationRequest =>
    simp only
    split
    · next hzero =>
      rw [hzero] at hpeer
      have hanswerer : (s.createAnswerer pkt ctxId rnd).2.Consistent
            ((s.createAnswerer pkt ctxId rnd).1.getD 0) ∧
          ∀ connId, (s.createAnswerer pkt ctxId rnd).1 = some connId → ∃ ci,
            (s.createAnswerer pkt ctxId rnd).2.connections.find? connId = some ci ∧ ci.state = .inactive :=
        hs.createAnswerer hpeer howner
      split
      · next heq =>
        rw [heq] at hanswerer
        exact .inl hanswerer.1
      rename_i connId' s' heq
      rw [heq] at hanswerer
      obtain ⟨hcreated, hinactive⟩ := hanswerer
      obtain ⟨ci, hfind, hstate⟩ := hinactive connId' rfl
      refine .inr ⟨Consistent.answerRequest hcreated, ?_⟩
      unfold Signaling.answerRequest
      simp only at hfind
      rw [hfind]
      exact if_pos hstate
    · exact .inl hs.answerRequest
  | activationAck => exact .inl (hs.modify fun _ _ => ⟨rfl, rfl, rfl, rfl, id, id, rfl⟩)
  | established =>
    simp only
    split
    · exact .inl hs
    · exact .inl (hs.modify fun _ _ => ⟨rfl, rfl, rfl, rfl, id, id, rfl⟩)
  | close =>
    simp only
    split <;> exact .inl hs
  | unknown => exact .inl hs

theorem Consistent.controlPacket (hs : s.Consistent 0) (hpeer : s.FindsPeer (idString pkt.onlineIdFrom) connId)
    (howner : s.FindsOwner (idString pkt.onlineIdTo) ctxId) :
    (s.handleControlPacket fromAddr fromPort pkt connId ctxId rnd now).Consistent 0 := by
  have hreceived : (s.receiveControl fromAddr fromPort pkt connId ctxId rnd).1.Consistent 0 ∨
      (s.receiveControl fromAddr fromPort pkt connId ctxId rnd).1.Consistent
          (s.receiveControl fromAddr fromPort pkt connId ctxId rnd).2.1 ∧
        (s.receiveControl fromAddr fromPort pkt connId ctxId rnd).2.2 = .startHandshake :=
    hs.receiveControl hpeer howner
  unfold handleControlPacket
  simp only
  rcases hreceived with hreceived | ⟨hreceived, hnext⟩
  · split
    · exact hreceived
    · exact hreceived.startHandshake
    · exact hreceived.establishConnection false now
    · exact hreceived.congr (dispatchConnectionEvent_tables _)
    · exact hreceived.close _
  · rw [hnext]
    exact hreceived.started

/-! ## Contexts -/

/-- A context may be entered or changed. -/
theorem Consistent.withContext (hs : s.Consistent starting) (ctxId : Int) (ctx : NpSignalingContext) :
    (s.insertContext ctxId ctx).Consistent starting := by
  refine ⟨hs.index, hs.peers, hs.ids, fun c ci hfind => ?_, hs.status, hs.handle, hs.alive, hs.seed⟩
  show ((s.contexts.insert ctxId ctx).find? ci.ctxId).isSome
  rw [StdMap.find?_insert]
  split
  · rfl
  · exact hs.contexts c ci hfind

theorem Consistent.addContext (hs : s.Consistent starting) (hadds : s.AddsContext s') : s'.Consistent starting := by
  obtain rfl | ⟨-, n, ctx, -, -, rfl⟩ := hadds
  · exact hs
  · have hnamed : Consistent { s with lastAssignedContextId := n } starting :=
      ⟨hs.index, hs.peers, hs.ids, hs.contexts, hs.status, hs.handle, hs.alive, hs.seed⟩
    exact hnamed.withContext _ ctx

theorem Consistent.removeAll (hs : s.Consistent starting) (connIds : List Int) :
    (s.removeConnectionsLocked connIds).Consistent starting := by
  unfold removeConnectionsLocked
  induction connIds generalizing s with
  | nil => exact hs
  | cons connId connIds ih => exact ih hs.remove

theorem Consistent.closeAll (hs : s.Consistent starting) (connIds : List Int) (errorCode : EventData) :
    (connIds.foldl (fun s connId => s.closeConnectionAndDispatchDead connId errorCode) s).Consistent starting := by
  induction connIds generalizing s with
  | nil => exact hs
  | cons connId connIds ih => exact ih (hs.close errorCode)

/-- The connections of a context go before it does. -/
theorem Consistent.eraseContext (hs : s.Consistent starting) (ctxId : Int) :
    (s.eraseContext ctxId).Consistent starting := by
  have hremoved : (s.removeContextConnectionsLocked ctxId).Consistent starting := hs.removeAll _
  refine ⟨hremoved.index, hremoved.peers, hremoved.ids, fun c ci hfind => ?_, hremoved.status, hremoved.handle,
    hremoved.alive, hremoved.seed⟩
  have hother : ci.ctxId ≠ ctxId := by
    intro hctx
    obtain ⟨hnot, hold⟩ := find?_of_removeConnectionsLocked hfind
    exact hnot (mem_connectionIds hold (decide_eq_true hctx))
  show (((s.removeContextConnectionsLocked ctxId).contexts.erase ctxId).find? ci.ctxId).isSome
  rw [StdMap.find?_erase, if_neg hother]
  exact hremoved.contexts c ci hfind

theorem Consistent.deleteContext (hs : s.Consistent starting) (ctxId : Int) :
    (s.deleteContext ctxId).2.Consistent starting := by
  unfold Signaling.deleteContext
  split
  · exact hs
  · exact (hs.closeAll _ _).eraseContext ctxId

/-! ## Activation -/

/-- An activation that creates a connection creates the only one for this online id. -/
def ActivationAlone (s : Signaling) (ctxId : Int) (npid : OrbisNpId) : Prop :=
  s.reusableConnection ctxId npid = none → ∀ c ci, s.connections.find? c = some ci → ci.ctxId = ctxId →
    onlineIdToString ci.onlineId = onlineIdToString npid.handle → ci.npid = npid

/-- Where every connection is alive, an entry of the table can be used again. -/
theorem Consistent.npidToConn_eq_none (hs : s.Consistent 0)
    (hnone : s.reusableConnection ctxId npid = none) : s.npidToConn (ctxId, npid) = none := by
  cases hkey : s.npidToConn (ctxId, npid) with
  | none => rfl
  | some c =>
    obtain ⟨ci, hfind, -, -⟩ := (hs.index ctxId npid c).mp hkey
    unfold reusableConnection at hnone
    rw [hkey] at hnone
    simp only [hfind] at hnone
    rw [if_neg (hs.live hfind)] at hnone
    cases hnone

theorem Consistent.reactivate (hs : s.Consistent starting) :
    (s.reactivate connId ci npid).2.Consistent starting := by
  have hmodified : (s.modifyConnection connId fun ci =>
      ConnectionInfo.clearLingerAndTimeoutLocked { ci with locallyActivated := true }).Consistent starting :=
    hs.modify fun _ _ => ⟨rfl, rfl, rfl, rfl, id, id, rfl⟩
  unfold Signaling.reactivate
  simp only
  split
  · exact ⟨hmodified.index, hmodified.peers, hmodified.ids, hmodified.contexts, hmodified.status, hmodified.handle,
      hmodified.alive, hmodified.seed⟩
  · exact hmodified

theorem Consistent.createActivated (hs : s.Consistent 0)
    (hctx : (s.contexts.find? ctxId).isSome) (hnone : s.reusableConnection ctxId npid = none)
    (halone : s.ActivationAlone ctxId npid) : (s.createActivated ctxId npid rnd).2.Consistent 0 := by
  have hkey := hs.npidToConn_eq_none hnone
  have hdrop : s.dropInactive ctxId npid = s := by
    unfold Signaling.dropInactive
    rw [hkey]
  have hallocated := hs.allocate rnd
  have hspec := (allocateConnectionIdLocked_spec hs.seed rnd).2
  unfold Signaling.createActivated
  rw [hdrop]
  split
  · next heq =>
    rw [heq] at hallocated
    exact hallocated
  rename_i connId s' heq
  have hsame : s'.connections = s.connections ∧ s'.contexts = s.contexts := by
    obtain ⟨-, rfl⟩ := Prod.mk.inj heq
    exact ⟨rfl, rfl⟩
  rw [heq] at hallocated hspec
  obtain ⟨hpos, hle, hfree⟩ := hspec connId rfl
  have hkeeps : ConnectionInfo.Keeps
      { ConnectionInfo.create s'.nextSerial connId ctxId with
        state := .sendingOffer, status := .pending, isInitiator := true, locallyActivated := true, npid := npid,
        onlineId := npid.handle }
      (ConnectionInfo.createActivated s'.calloutCtxActive s'.nextSerial connId ctxId npid) :=
    ConnectionInfo.stays_armTimeout.keeps
  have hfresh : s'.Fresh connId 0
      (ConnectionInfo.createActivated s'.calloutCtxActive s'.nextSerial connId ctxId npid) := by
    refine ⟨?_, ⟨hpos, hle, hkeeps.connId⟩, ?_, hkeeps.status rfl, ?_, ⟨hkeeps.deadFired, fun _ => ?_⟩, ?_⟩
    · rw [hsame.1]
      exact hfree
    · rw [hkeeps.ctxId, hsame.2]
      exact hctx
    · rw [hkeeps.npid, hkeeps.onlineId]
    · exact hkeeps.live nofun
    · intro c ci hfind hctx' hid
      rw [hsame.1] at hfind
      rw [hkeeps.ctxId] at hctx'
      rw [hkeeps.onlineId] at hid
      have hnpid := halone hnone c ci hfind hctx' hid
      have hindexed := (hs.index ctxId npid c).mpr ⟨ci, hfind, hctx', hnpid⟩
      rw [hkey] at hindexed
      cases hindexed
  have hinserted := hallocated.insert hfresh
  rw [hkeeps.ctxId, hkeeps.npid] at hinserted
  exact ⟨hinserted.index, hinserted.peers, hinserted.ids, hinserted.contexts, hinserted.status, hinserted.handle,
    hinserted.alive, hinserted.seed⟩

theorem Consistent.activate (hs : s.Consistent 0) {ctxId now : Int} {peerNpid : Option OrbisNpId}
    (halone : ∀ npid, (s.admitActivation ctxId peerNpid now).1 = .ok npid → s.ActivationAlone ctxId npid) :
    (s.activate ctxId peerNpid now rnd).2.Consistent 0 := by
  have hadmitted : (s.admitActivation ctxId peerNpid now).2.Consistent 0 := by
    rcases @admitActivation_state s ctxId now peerNpid with h | ⟨-, ctx, ctx', -, -, h⟩
    · rw [h]
      exact hs
    · rw [h]
      exact hs.withContext ctxId ctx'
  unfold Signaling.activate
  split
  · next heq =>
    rw [heq] at hadmitted
    exact hadmitted
  rename_i npid s' heq
  obtain ⟨-, -, -, ctx, ctx', -, -, rfl⟩ := admitActivation_ok heq
  rw [heq] at hadmitted halone
  have halone : (s.insertContext ctxId ctx').ActivationAlone ctxId npid := halone npid rfl
  split
  · exact hadmitted.reactivate
  rename_i hnone
  have hctx : ((s.insertContext ctxId ctx').contexts.find? ctxId).isSome := by
    show ((s.contexts.insert ctxId ctx').find? ctxId).isSome
    rw [StdMap.find?_insert, if_pos rfl]
    rfl
  have hcreated : ((s.insertContext ctxId ctx').createActivated ctxId npid rnd).2.Consistent 0 :=
    hadmitted.createActivated hctx hnone halone
  split
  all_goals
    next heq =>
    rw [heq] at hcreated
    exact hcreated

theorem Consistent.activateConnection (hs : s.Consistent 0) {ctxId now : Int} {peerNpid : Option OrbisNpId}
    (halone : ∀ npid, (s.admitActivation ctxId peerNpid now).1 = .ok npid → s.ActivationAlone ctxId npid) :
    (s.activateConnection ctxId peerNpid now rnd).2.Consistent 0 := by
  have hactivated : (s.activate ctxId peerNpid now rnd).2.Consistent 0 := hs.activate halone
  unfold Signaling.activateConnection
  split
  · next heq =>
    rw [heq] at hactivated
    exact hactivated
  rename_i heq
  rw [heq] at hactivated
  simp only
  split
  · exact hactivated.establishConnection false now
  · exact hactivated

theorem Consistent.activateConnectionA (hs : s.Consistent starting) {ctxId now : Int}
    {peerAddr : Option (Nat × Nat)} (hnot : ¬s.CreatesForAccount ctxId peerAddr now rnd) :
    (s.activateConnectionA ctxId peerAddr now rnd).2.Consistent starting := by
  obtain h | ⟨-, ctx, s₁, -, rfl, h⟩ := @activateConnectionA_cases s ctxId now peerAddr rnd
  · rw [h]
    exact hs
  · have hcharged : (s.chargeActivation ctxId ctx now).2.Consistent starting := hs.withContext ctxId _
    obtain h | h | ⟨hcreates, -⟩ := h
    · rw [h]
      exact hcharged
    · rw [h]
      exact hcharged.allocate rnd
    · exact absurd hcreates hnot

theorem Consistent.deactivateConnection (hs : s.Consistent starting) (ctxId : Int) :
    (s.deactivateConnection ctxId connId).2.Consistent starting := by
  unfold Signaling.deactivateConnection
  split
  · exact hs
  · exact hs.deactivateFaithful

theorem Consistent.terminateConnection (hs : s.Consistent starting) (ctxId : Int) :
    (s.terminateConnection ctxId connId).2.Consistent starting := by
  unfold Signaling.terminateConnection
  split
  · exact hs
  · exact hs.terminateFaithful.remove

/-! ## Pending activations -/

theorem Consistent.processActivation (hs : s.Consistent starting) {resolvePeer : List UInt8 → Option (Nat × Nat)}
    {act : PendingActivation} : (s.processActivation resolvePeer now act).Consistent starting := by
  have hsent : ∀ addr port, (s.sendActivation act.connId addr port).1.Consistent starting := by
    intro addr port
    have hstored : (s.modifyConnection act.connId fun ci =>
        { ci with addr := addr, port := port }).Consistent starting :=
      hs.modify fun _ _ => ⟨rfl, rfl, rfl, rfl, id, id, rfl⟩
    unfold sendActivation
    split
    · exact hs
    split
    · exact hs
    · exact hstored.congr (sendActivationRequestLocked_tables _)
  unfold Signaling.processActivation
  split
  · exact hs
  split
  · exact hs
  rename_i addr port _
  have hsent := hsent addr port
  split
  · exact hs
  split
  · next heq =>
    rw [heq] at hsent
    exact hsent
  rename_i heq
  rw [heq] at hsent
  split
  · exact hsent.startHandshake
  split
  · exact hsent.establishConnection false now
  · exact hsent

theorem Consistent.processPending (hs : s.Consistent starting) {resolvePeer : List UInt8 → Option (Nat × Nat)} :
    (s.processPendingActivations resolvePeer now).Consistent starting := by
  have hloop : ∀ acts : List PendingActivation, ∀ s : Signaling, s.Consistent starting →
      (acts.foldl (fun s act => s.processActivation resolvePeer now act) s).Consistent starting := by
    intro acts
    induction acts with
    | nil => exact fun _ hs => hs
    | cons act acts ih => exact fun s hs => ih _ hs.processActivation
  exact hloop _ _ ⟨hs.index, hs.peers, hs.ids, hs.contexts, hs.status, hs.handle, hs.alive, hs.seed⟩

/-! ## Runs -/

/-- Steps after which the tables agree. Only activations can spoil the agreement. -/
def KeepsTables (s : Signaling) : SignalingAction → Prop
  | .activate ctxId peerNpid now _ =>
    ∀ npid, (s.admitActivation ctxId peerNpid now).1 = .ok npid → s.ActivationAlone ctxId npid
  | .activateA ctxId peerAddr now rnd => ¬s.CreatesForAccount ctxId peerAddr now rnd
  | _ => True

/-- Without connections the tables agree. -/
theorem consistent_empty (hconnections : s.connections = ∅) (hindex : s.npidToConn = fun _ => none)
    (hseed : s.connectionIdSeed ≤ 0x7fff) : s.Consistent 0 := by
  have hnone : ∀ c ci, ¬s.connections.find? c = some ci := by
    rw [hconnections]
    intro c ci hfind
    cases hfind
  refine ⟨fun ctxId npid c => ?_, ?_, ?_, ?_, ?_, ?_, ?_, hseed⟩
  · rw [hindex]
    refine ⟨nofun, ?_⟩
    rintro ⟨ci, hfind, -⟩
    exact absurd hfind (hnone c ci)
  · exact fun c _ ci _ hfind => absurd hfind (hnone c ci)
  · exact fun c ci hfind => absurd hfind (hnone c ci)
  · exact fun c ci hfind => absurd hfind (hnone c ci)
  · exact fun c ci hfind => absurd hfind (hnone c ci)
  · exact fun c ci hfind => absurd hfind (hnone c ci)
  · exact fun c ci hfind => absurd hfind (hnone c ci)

theorem Consistent.perform (hs : s.Consistent 0) {a : SignalingAction} (hkeeps : s.KeepsTables a)
    (hstep : s.perform a = some s') : s'.Consistent 0 := by
  cases a with
  | init =>
    cases hstep
    unfold sceNpSignalingInitialize
    split
    · exact hs
    · exact ⟨hs.index, hs.peers, hs.ids, hs.contexts, hs.status, hs.handle, hs.alive, hs.seed⟩
  | term =>
    cases hstep
    unfold sceNpSignalingTerminate
    split
    · exact hs
    · exact consistent_empty rfl rfl hs.seed
  | createContext npid callback sdk now =>
    cases hstep
    exact hs.addContext createContext_adds
  | createContextA npid callback sdk now =>
    cases hstep
    exact hs.addContext createContextA_adds
  | deleteContext ctxId =>
    cases hstep
    exact hs.deleteContext ctxId
  | activate ctxId peerNpid now rnd =>
    cases hstep
    exact hs.activateConnection hkeeps
  | activateA ctxId peerAddr now rnd =>
    cases hstep
    exact hs.activateConnectionA hkeeps
  | deactivate ctxId connId =>
    cases hstep
    exact hs.deactivateConnection ctxId
  | terminateConnection ctxId connId =>
    cases hstep
    exact hs.terminateConnection ctxId
  | processPending resolvePeer now =>
    cases hstep
    exact hs.processPending
  | handshake fromAddr fromPort pkt connId now =>
    simp only [Signaling.perform] at hstep
    split at hstep
    · cases hstep
      exact hs.handshakePacket
    · cases hstep
  | control fromAddr fromPort pkt connId ctxId rnd now =>
    simp only [Signaling.perform] at hstep
    split at hstep
    · next hfinds =>
      cases hstep
      exact hs.controlPacket hfinds.1 hfinds.2
    · cases hstep
  | timeout connId =>
    cases hstep
    exact hs.timeout
  | step connId now =>
    cases hstep
    exact hs.stepExpired now
  | externalIp addr =>
    cases hstep
    exact hs.congr rfl

theorem consistent_of_reaches {h : List StagedEvent} (hreach : Reaches Signaling.step KeepsTables start s h) :
    s.Consistent 0 := by
  refine hreach.invariant (P := fun s _ => s.Consistent 0) (consistent_empty rfl rfl (by decide)) ?_
  intro s h a s' es hs hkeeps hstep
  exact hs.perform hkeeps (step_eq_some hstep)

theorem tablesAgree_of_keepsTables {h : List StagedEvent}
    (hreach : Reaches Signaling.step KeepsTables start s h) : s.TablesAgree :=
  (consistent_of_reaches hreach).tablesAgree

/-! ## Two runs -/

/-- Another user than the owner and the peer. -/
def secondNpid : OrbisNpId := npIdFromOnlineId (setNpOnlineId [115, 101, 99, 111, 110, 100])

/-- The owner has activated a connection to the peer. -/
def withConnection : Signaling :=
  ((start.sceNpSignalingInitialize.createContext (some ownerNpid) true 0 0).2.activateConnection 1
    (some peerNpid) 0 0).2

theorem reaches_withConnection : Reaches Signaling.step KeepsTables start withConnection [] := by
  have hinit : Reaches Signaling.step KeepsTables start start.sceNpSignalingInitialize [] :=
    Reaches.start.step (a := .init) (by exact trivial) rfl
  have howner := hinit.step (a := .createContext (some ownerNpid) true 0 0) (by exact trivial) rfl
  exact howner.step (a := .activate 1 (some peerNpid) 0 0)
    (by intro npid _ _ c ci hfind; cases hfind) rfl

/-- The connection of the context has another online id. -/
theorem withConnection_keepsTables : withConnection.KeepsTables (.activate 1 (some secondNpid) 1 1) := by
  have hother : ∀ e ∈ withConnection.connections.entries,
      onlineIdToString e.2.onlineId ≠ onlineIdToString secondNpid.handle := by decide
  have hadmitted : (withConnection.admitActivation 1 (some secondNpid) 1).1 = .ok secondNpid := rfl
  intro npid hnpid _ c ci hfind _ hname
  obtain rfl : secondNpid = npid := by
    rw [hadmitted] at hnpid
    cases hnpid
    rfl
  exact absurd hname (hother (c, ci) (StdMap.mem_entries_iff.2 hfind))

/-- The tables agree on two connections that were activated by their NP ids, with an activation by an
    account between them that is refused. -/
theorem tablesAgree_afterActivation : ∃ s h, Reaches Signaling.step KeepsTables start s h ∧
    s.npidToConn (1, peerNpid) = some 1 ∧ s.npidToConn (1, secondNpid) = some 2 ∧ s.TablesAgree := by
  have hrefused : withConnection.KeepsTables (.activateA 9 (some (7, 1)) 1 0) := by
    rintro ⟨-, _, _, ctx, -, -, -, hfind, -⟩
    cases hfind
  have hreach := (reaches_withConnection.step hrefused rfl).step withConnection_keepsTables rfl
  exact ⟨_, _, hreach, by decide, by decide, tablesAgree_of_keepsTables hreach⟩

def activateForAccount : List SignalingAction :=
  [.init, .createContext (some ownerNpid) true 0 0, .activateA 1 (some (7, 1)) 0 0]

/-- A connection that was activated by an account is in one table only. -/
theorem tablesDisagree_afterActivateA : ∃ s h, Reaches Signaling.step (fun _ _ => True) start s h ∧
    ¬s.TablesAgree := by
  have hrun : (runAllowed Signaling.step (fun _ _ => True) start [] activateForAccount).any (fun r =>
      (r.1.connections.find? 1).any fun ci => r.1.npidToConn (ci.ctxId, ci.npid) = none) = true := by
    decide
  obtain ⟨⟨s, h⟩, hrun, hs⟩ := (Option.any_eq_true _ _).mp hrun
  obtain ⟨ci, hfind, hnone⟩ := (Option.any_eq_true _ _).mp hs
  refine ⟨s, h, Reaches.start.of_runAllowed hrun, fun hagree => ?_⟩
  have hindexed := (hagree.index ci.ctxId ci.npid 1).mpr ⟨ci, hfind, rfl, rfl⟩
  rw [of_decide_eq_true hnone] at hindexed
  cases hindexed

end Signaling

end NpSignaling
