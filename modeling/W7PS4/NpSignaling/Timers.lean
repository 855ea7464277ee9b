-- SUMMARY: When the timers of NP signaling cover every connection: which steps leave one without the callout that would close or probe it.
import W7PS4.Lib.Reaches
import W7PS4.NpSignaling.Operations

/-!
# Timers of connections

A connection in a handshake, and one that lingers after its deactivation, has its timeout
armed; an established one with a peer address has its keep-alive armed. Two kinds of steps
break that. An activation of a connection that is there clears the timeout, and arms
nothing in its place. And an established connection without an address loses its keep-alive when
it expires, so that it has none when a packet brings the address.
-/

namespace NpSignaling

/-! ## One connection -/

namespace ConnectionInfo

structure Supervised (ci : ConnectionInfo) : Prop where
  handshake : ci.state ≠ .inactive → ci.state ≠ .established → ci.timeoutCalloutArmed
  lingering : ci.state = .established → ci.deactivateLingering → ci.timeoutCalloutArmed
  keepAlive : ci.state = .established → ¬ci.deactivateLingering → ci.HasPeerAddress → ci.stepCalloutArmed

/-- A connection that is supervised, and what is known of its past. -/
structure Timed (ci : ConnectionInfo) : Prop extends ci.Supervised where
  /-- It lingers only after it was established. -/
  fired : ci.state = .established ∨ ci.deactivateLingering → ci.establishedFired
  /-- Dead connections are removed before an operation ends. -/
  alive : ci.deadFired = false

/-- If the connection is established and has the address of `ci'`, its keep-alive is armed. -/
def StaysSupervised (ci ci' : ConnectionInfo) : Prop :=
  ci.state = .established → ¬ci.deactivateLingering → ci'.HasPeerAddress → ci.stepCalloutArmed

variable {ci : ConnectionInfo}

theorem Timed.linger (hci : ci.Timed) (hestablished : ci.state = .established) : (ci.linger true).Timed where
  handshake := fun _ h => absurd hestablished h
  lingering := fun _ _ => rfl
  keepAlive := fun _ h => absurd rfl h
  fired := fun _ => hci.fired (.inl hestablished)
  alive := hci.alive

theorem armHandshakeCallouts_armed : (ci.armHandshakeCallouts true).timeoutCalloutArmed = true := by
  unfold armHandshakeCallouts armStepCalloutLocked armTimeoutCalloutLocked
  cases harmed : ci.timeoutCalloutArmed <;> simp [harmed]

/-- A connection that enters a handshake state with its callouts armed. -/
theorem timed_armHandshakeCallouts {state : ConnState} (hpending : state ≠ .established)
    (hfired : ci.deactivateLingering → ci.establishedFired) (halive : ci.deadFired = false) :
    ((ci.setConnStateLocked state).armHandshakeCallouts true).Timed := by
  have hstate : ((ci.setConnStateLocked state).armHandshakeCallouts true).state = state := by
    unfold armHandshakeCallouts
    split <;> rfl
  have hrest : ((ci.setConnStateLocked state).armHandshakeCallouts true).deactivateLingering =
        ci.deactivateLingering ∧
      ((ci.setConnStateLocked state).armHandshakeCallouts true).establishedFired = ci.establishedFired ∧
      ((ci.setConnStateLocked state).armHandshakeCallouts true).deadFired = ci.deadFired := by
    unfold armHandshakeCallouts
    split <;> exact ⟨rfl, rfl, rfl⟩
  refine ⟨⟨fun _ _ => armHandshakeCallouts_armed, fun h => ?_, fun h => ?_⟩, fun h => ?_, ?_⟩
  · exact absurd (hstate.symm.trans h) hpending
  · exact absurd (hstate.symm.trans h) hpending
  · rw [hrest.1] at h
    rw [hrest.2.1]
    exact hfired (h.resolve_left fun h => hpending (hstate.symm.trans h))
  · rw [hrest.2.2]
    exact halive

theorem Timed.startHandshake (hci : ci.Timed) : (ci.startHandshake true).Timed :=
  timed_armHandshakeCallouts (by decide) (fun h => hci.fired (.inr h)) hci.alive

theorem Timed.setPeerActivated (hci : ci.Timed) {peerActivated : Bool} :
    Timed { ci with peerActivated := peerActivated } :=
  ⟨⟨hci.handshake, hci.lingering, hci.keepAlive⟩, hci.fired, hci.alive⟩

/-- A connection that was not established before does not linger. -/
theorem Timed.firstEstablished (hci : ci.Timed) (hfirst : ci.establishedFired = false) (now : Int) :
    (ci.firstEstablished true now).Timed where
  handshake := fun _ h => absurd rfl h
  lingering := fun _ hlinger => by
    have := hci.fired (.inr hlinger)
    rw [hfirst] at this
    cases this
  keepAlive := fun _ _ _ => rfl
  fired := fun _ => rfl
  alive := hci.alive

theorem Timed.establish (hci : ci.Timed) (hint : Bool) (now : Int) : (ci.establish true hint now).1.Timed := by
  have hhinted : (if hint then { ci with peerActivated := true } else ci).Timed := by
    split
    · exact hci.setPeerActivated
    · exact hci
  have hmarked : ∀ {ci : ConnectionInfo} {a b : Bool}, ci.Timed →
      Timed { ci with establishedEventFired := a, mutualFired := b } := fun h =>
    ⟨⟨h.handshake, h.lingering, h.keepAlive⟩, h.fired, h.alive⟩
  unfold ConnectionInfo.establish
  generalize (if hint then { ci with peerActivated := true } else ci) = hinted at hhinted ⊢
  apply hmarked
  split
  · next hfirst => exact hhinted.firstEstablished (by simpa using hfirst) now
  · exact hhinted

variable {fromAddr fromPort mappedAddr : Nat}

theorem Timed.offered (hci : ci.Timed)
    (hstays : ci.StaysSupervised (ci.offerAddress fromAddr fromPort mappedAddr)) :
    (ci.offered true fromAddr fromPort mappedAddr).Timed := by
  unfold ConnectionInfo.offered
  simp only
  split
  · exact timed_armHandshakeCallouts (by decide) (fun h => hci.fired (.inr h)) hci.alive
  · exact ⟨⟨hci.handshake, hci.lingering, hstays⟩, hci.fired, hci.alive⟩

/-- A change of what the timers do not depend on, but for the address. -/
theorem Timed.withAddress (hci : ci.Timed) {ci' : ConnectionInfo} (hstays : ci.StaysSupervised ci')
    (hsame : ci'.state = ci.state ∧ ci'.timeoutCalloutArmed = ci.timeoutCalloutArmed ∧
      ci'.stepCalloutArmed = ci.stepCalloutArmed ∧ ci'.deactivateLingering = ci.deactivateLingering ∧
      ci'.establishedFired = ci.establishedFired ∧ ci'.deadFired = ci.deadFired) : ci'.Timed := by
  obtain ⟨hstate, htimeout, hstep, hlinger, hfired, hdead⟩ := hsame
  refine ⟨⟨?_, ?_, ?_⟩, ?_, ?_⟩
  · rw [hstate, htimeout]
    exact hci.handshake
  · rw [hstate, htimeout, hlinger]
    exact hci.lingering
  · rw [hstate, hstep, hlinger]
    exact hstays
  · rw [hstate, hlinger, hfired]
    exact hci.fired
  · rw [hdead]
    exact hci.alive

theorem acceptAddress_hasPeerAddress {now : Int} {fromAddr fromPort mappedAddr : Nat} :
    (acceptAddress { ci with lastPeerRxUs := now } fromAddr fromPort mappedAddr).HasPeerAddress ↔
      (ci.acceptAddress fromAddr fromPort mappedAddr).HasPeerAddress := by
  by_cases hmapped : mappedAddr ≠ 0
  · unfold acceptAddress
    rw [if_pos hmapped, if_pos hmapped]
    rfl
  unfold acceptAddress
  rw [if_neg hmapped, if_neg hmapped]
  rfl

theorem Timed.accepted (hci : ci.Timed)
    (hstays : ci.StaysSupervised (ci.acceptAddress fromAddr fromPort mappedAddr)) :
    (ci.accepted true fromAddr fromPort mappedAddr).Timed := by
  have haddress : ∀ ci' : ConnectionInfo, ci' = ci.acceptAddress fromAddr fromPort mappedAddr →
      ci'.state = ci.state ∧ ci'.timeoutCalloutArmed = ci.timeoutCalloutArmed ∧
      ci'.stepCalloutArmed = ci.stepCalloutArmed ∧ ci'.deactivateLingering = ci.deactivateLingering ∧
      ci'.establishedFired = ci.establishedFired ∧ ci'.deadFired = ci.deadFired := by
    rintro ci' rfl
    unfold acceptAddress
    split <;> exact ⟨rfl, rfl, rfl, rfl, rfl, rfl⟩
  unfold ConnectionInfo.accepted
  simp only
  generalize hci' : ci.acceptAddress fromAddr fromPort mappedAddr = ci' at hstays
  obtain ⟨hstate, htimeout, hstep, hlinger, hfired, hdead⟩ := haddress ci' hci'.symm
  split
  · next hawaits =>
    -- The state it leaves is a handshake state, so its timeout is armed.
    have hnot : ci.state ≠ .inactive ∧ ci.state ≠ .established := by
      rw [← hstate]
      rcases hawaits with h | h | h | h <;> rw [h] <;> decide
    refine ⟨⟨fun _ _ => htimeout.trans (hci.handshake hnot.1 hnot.2), nofun, nofun⟩, fun h => ?_, ?_⟩
    · have hlingers : ci'.deactivateLingering = true := h.resolve_left nofun
      exact hfired.trans (hci.fired (.inr (hlinger.symm.trans hlingers)))
    · exact hdead.trans hci.alive
  · exact hci.withAddress hstays ⟨hstate, htimeout, hstep, hlinger, hfired, hdead⟩

theorem Timed.checked (hci : ci.Timed) : ci.checked.Timed := by
  unfold ConnectionInfo.checked
  split
  · next hchecking =>
    have htimeout : ci.timeoutCalloutArmed = true := by
      rcases hchecking with h | h <;> exact hci.handshake (by rw [h]; decide) (by rw [h]; decide)
    exact ⟨⟨fun _ _ => htimeout, nofun, nofun⟩, fun h => hci.fired (.inr (h.resolve_left nofun)), hci.alive⟩
  · exact hci

/-- Without its keep-alive a connection is still supervised if it is not due one. -/
theorem Timed.cancelStep (hci : ci.Timed)
    (hnone : ci.state = .established → ¬ci.deactivateLingering → ¬ci.HasPeerAddress) :
    ci.cancelStepCalloutLocked.Timed :=
  ⟨⟨hci.handshake, hci.lingering, fun hest hlinger haddr => absurd haddr (hnone hest hlinger)⟩, hci.fired,
    hci.alive⟩

theorem Timed.armStep (hci : ci.Timed) : (ci.cancelStepCalloutLocked.armStepCalloutLocked true).Timed :=
  ⟨⟨hci.handshake, hci.lingering, fun _ _ _ => rfl⟩, hci.fired, hci.alive⟩

/-- Unless it finds the peer dead, the step callout leaves the connection supervised. -/
theorem Timed.stepped (hci : ci.Timed) {now : Int} (hlives : (ci.stepped true now).2.2 = false) :
    (ci.stepped true now).1.Timed := by
  unfold ConnectionInfo.stepped at hlives ⊢
  simp only at hlives ⊢
  split
  · next hest =>
    rw [if_pos hest] at hlives
    split
    · next hsend =>
      rw [if_pos hsend] at hlives
      split
      · next hstale =>
        rw [if_pos hstale] at hlives
        cases hlives
      · exact hci.armStep
    · next hsend => exact hci.cancelStep fun _ hlinger haddr => hsend ⟨hlinger, haddr⟩
  · next hest =>
    split
    · exact hci.armStep
    · exact hci.cancelStep fun h => absurd h hest

/-- The step callout finds a peer dead only on an established connection. -/
theorem stepped_of_dead {active : Bool} {now : Int} (hdead : (ci.stepped active now).2.2 = true) :
    ci.state = .established ∧ ci.stepped active now = (ci.cancelStepCalloutLocked, none, true) := by
  unfold ConnectionInfo.stepped at hdead ⊢
  simp only at hdead ⊢
  split at hdead
  · next hest =>
    rw [if_pos hest]
    split at hdead
    · next hsend =>
      rw [if_pos hsend]
      split at hdead
      · next hstale =>
        rw [if_pos hstale]
        exact ⟨hest, rfl⟩
      · cases hdead
    · cases hdead
  · split at hdead <;> cases hdead

theorem Timed.requested (hci : ci.Timed)
    (hstays : ci.StaysSupervised (ci.offerAddress fromAddr fromPort mappedAddr)) :
    (ci.requested true fromAddr fromPort mappedAddr).Timed := by
  unfold ConnectionInfo.requested
  simp only
  split
  · exact ⟨⟨fun _ _ => rfl, fun _ _ => rfl, hstays⟩, hci.fired, hci.alive⟩
  · exact ⟨⟨hci.handshake, hci.lingering, hstays⟩, hci.fired, hci.alive⟩

/-- Clearing the timeout does no harm to an established connection whose keep-alive is armed when it is due. -/
theorem Timed.reactivate (hci : ci.Timed) (hest : ci.state = .established)
    (harmed : ci.deactivateLingering → ci.HasPeerAddress → ci.stepCalloutArmed) :
    (clearLingerAndTimeoutLocked { ci with locallyActivated := true }).Timed where
  handshake := fun _ h => absurd hest h
  lingering := fun _ h => by cases h
  keepAlive := fun _ _ haddr => by
    by_cases hlinger : ci.deactivateLingering = true
    · exact harmed hlinger haddr
    · exact hci.keepAlive hest hlinger haddr
  fired := fun _ => hci.fired (.inl hest)
  alive := hci.alive

end ConnectionInfo

/-! ## The invariant -/

namespace Signaling

/-- Every connection is timed; while there are connections, callouts can be armed. -/
structure Covered (s : Signaling) : Prop where
  active : s.calloutCtxActive = s.initialized
  off : s.initialized = false → s.contexts = ∅ ∧ s.connections = ∅
  timed : ∀ connId ci, s.connections.find? connId = some ci → ci.Timed

variable {s s' : Signaling} {connId : Int} {ci : ConnectionInfo}

theorem Covered.congr (hs : s.Covered) (h : s'.toSignalingTables = s.toSignalingTables) : s'.Covered where
  active := by
    rw [h]
    exact hs.active
  off := by
    rw [h]
    exact hs.off
  timed := by
    rw [h]
    exact hs.timed

/-- Where there is a connection, the callout context is active. -/
theorem Covered.callout (hs : s.Covered) (hfind : s.connections.find? connId = some ci) :
    s.calloutCtxActive = true := by
  rw [hs.active]
  by_contra hoff
  rw [(hs.off (Bool.eq_false_iff.mpr hoff)).2] at hfind
  cases hfind

theorem Covered.modify (hs : s.Covered) {f : ConnectionInfo → ConnectionInfo}
    (hf : ∀ ci, s.connections.find? connId = some ci → ci.Timed → (f ci).Timed) :
    (s.modifyConnection connId f).Covered where
  active := hs.active
  off := fun hoff => by
    obtain ⟨hcontexts, hconnections⟩ := hs.off hoff
    refine ⟨hcontexts, StdMap.ext_find? fun c => ?_⟩
    rw [find?_modifyConnection, hconnections]
    split <;> rfl
  timed := fun c ci' hfind => by
    obtain ⟨hold, -⟩ | ⟨ci, rfl, hold, rfl⟩ := find?_modifyConnection_eq_some hfind
    · exact hs.timed c ci' hold
    · exact hf ci hold (hs.timed _ ci hold)

theorem Covered.remove (hs : s.Covered) : (s.removeConnectionLocked connId).Covered where
  active := by
    unfold removeConnectionLocked
    split <;> exact hs.active
  off := fun hoff => by
    have hoff' : s.initialized = false := by
      unfold removeConnectionLocked at hoff
      split at hoff <;> exact hoff
    obtain ⟨hcontexts, hconnections⟩ := hs.off hoff'
    refine ⟨?_, StdMap.ext_find? fun c => ?_⟩
    · unfold removeConnectionLocked
      split <;> exact hcontexts
    · rw [removeConnectionLocked_connections, hconnections]
      exact ite_self _
  timed := fun c ci hfind => hs.timed c ci (find?_of_removeConnectionLocked hfind).2

theorem Covered.close (hs : s.Covered) (errorCode : EventData) :
    (s.closeConnectionAndDispatchDead connId errorCode).Covered := by
  by_cases hlive : ∃ ci, s.connections.find? connId = some ci ∧ ¬(ci.state = .inactive ∨ ci.deadFired)
  · obtain ⟨ci, hfind, hlive⟩ := hlive
    exact hs.remove.congr (closeConnectionAndDispatchDead_of_live hfind hlive errorCode)
  rw [closeConnectionAndDispatchDead_of_not_live]
  · exact hs
  · intro ci hfind
    by_contra hnot
    exact hlive ⟨ci, hfind, hnot⟩

/-- Closing a connection after a change to it. -/
theorem Covered.closeModified (hs : s.Covered) (f : ConnectionInfo → ConnectionInfo)
    (hf : ∀ ci, s.connections.find? connId = some ci → (f ci).ctxId = ci.ctxId ∧ (f ci).npid = ci.npid)
    (hlive : ∀ ci, s.connections.find? connId = some ci → ¬((f ci).state = .inactive ∨ (f ci).deadFired))
    (errorCode : EventData) :
    ((s.modifyConnection connId f).closeConnectionAndDispatchDead connId errorCode).Covered := by
  cases hfind : s.connections.find? connId with
  | none =>
    rw [modifyConnection_of_none hfind]
    exact hs.close errorCode
  | some ci =>
    have hmodified : (s.modifyConnection connId f).connections.find? connId = some (f ci) := by
      rw [find?_modifyConnection, if_pos rfl, hfind, Option.map_some]
    have hremoved : (s.removeConnectionLocked connId).Covered := hs.remove
    refine hremoved.congr ?_
    rw [closeConnectionAndDispatchDead_of_live hmodified (hlive ci hfind), removeConnectionLocked_modifyConnection hf]

/-! ## Sections and operations -/

theorem Covered.establish (hs : s.Covered) (hint : Bool) (now : Int) : (s.establish connId hint now).1.Covered := by
  unfold Signaling.establish
  split
  · exact hs
  rename_i ci hfind
  have hmodified : (s.modifyConnection connId fun _ => (ci.establish s.calloutCtxActive hint now).1).Covered := by
    rw [hs.callout hfind]
    exact hs.modify fun _ _ _ => (hs.timed connId ci hfind).establish hint now
  simp only
  split
  · exact hmodified.congr (sendToPeer_tables _)
  · exact hmodified

theorem Covered.establishConnection (hs : s.Covered) (hint : Bool) (now : Int) :
    (s.establishConnection connId hint now).Covered :=
  (hs.establish hint now).congr establishConnection_tables

theorem Covered.startHandshake (hs : s.Covered) : (s.startHandshakeInitiator connId).Covered := by
  refine Covered.congr (hs.modify fun ci hfind hci => ?_) startHandshakeInitiator_tables
  rw [hs.callout hfind]
  exact hci.startHandshake

theorem Covered.deactivateFaithful (hs : s.Covered) : (s.deactivateConnectionFaithful connId).Covered := by
  unfold deactivateConnectionFaithful deactivate
  split
  · exact hs
  rename_i ci hfind
  split
  · exact hs
  split
  · next hest =>
    have hsent : (s.sendControlCloseLocked ci .deactivate).Covered :=
      hs.congr (sendControlCloseLocked_tables _)
    refine hsent.modify fun ci' hfind' hci' => ?_
    rw [sendControlCloseLocked_tables, hfind] at hfind'
    obtain rfl := Option.some.inj hfind'
    rw [hs.callout hfind]
    exact hci'.linger hest.1
  · simp only
    split
    · exact hs.close _
    · exact hs

theorem Covered.terminateFaithful (hs : s.Covered) : (s.terminateConnectionFaithful connId).Covered := by
  have hsent : (s.sendTerminate connId).Covered := by
    unfold sendTerminate
    split
    · exact hs
    · exact hs.congr (sendControlCloseLocked_tables _)
  exact hsent.close _

theorem Covered.timeout (hs : s.Covered) : (s.timeoutCalloutHandler connId).Covered := by
  unfold timeoutCalloutHandler timeoutExpired
  split
  · exact hs
  rename_i ci hfind
  have hci := hs.timed connId ci hfind
  simp only
  split
  · next hdue =>
    by_cases hinactive : ci.state = .inactive
    · -- An inactive connection is not closed; it needs no timeout.
      refine Covered.close (hs.modify fun ci' hfind' hci' => ?_) _
      obtain rfl := Option.some.inj (hfind.symm.trans hfind')
      exact ⟨⟨fun h => absurd hinactive h, fun h => absurd (hinactive.symm.trans h) (by decide), hci'.keepAlive⟩,
        hci'.fired, hci'.alive⟩
    · refine hs.closeModified (·.cancelTimeoutCalloutLocked) (fun _ _ => ⟨rfl, rfl⟩) (fun ci' hfind' => ?_) _
      obtain rfl := Option.some.inj (hfind.symm.trans hfind')
      have halive : ci.deadFired = false := hci.alive
      rintro (h | h)
      · exact hinactive h
      · exact absurd (halive.symm.trans h) Bool.false_ne_true
  · next hkept =>
    rw [Bool.or_eq_true, not_or, decide_eq_true_eq, not_not] at hkept
    refine hs.modify fun ci' hfind' hci' => ?_
    obtain rfl := Option.some.inj (hfind.symm.trans hfind')
    exact ⟨⟨fun _ h => absurd hkept.1 h, fun _ h => absurd h hkept.2, hci'.keepAlive⟩, hci'.fired, hci'.alive⟩

theorem Covered.stepExpired (hs : s.Covered) (now : Int) : (s.stepCalloutHandler connId now).Covered := by
  unfold stepCalloutHandler Signaling.stepExpired
  split
  · exact hs
  rename_i ci hfind
  have hci := hs.timed connId ci hfind
  rw [hs.callout hfind]
  simp only
  cases hdead : (ci.stepped true now).2.2 with
  | false =>
    have hkept : (s.modifyConnection connId fun _ => (ci.stepped true now).1).Covered :=
      hs.modify fun _ _ _ => hci.stepped hdead
    split
    · exact hkept.congr (by simp)
    · exact hkept
  | true =>
    obtain ⟨hest, hnext⟩ := ConnectionInfo.stepped_of_dead hdead
    rw [hnext]
    refine hs.closeModified (fun _ => ci.cancelStepCalloutLocked) (fun ci' hfind' => ?_) (fun _ _ => ?_) _
    · obtain rfl := Option.some.inj (hfind.symm.trans hfind')
      exact ⟨rfl, rfl⟩
    · rintro (h | h)
      · exact absurd (hest.symm.trans h) (by decide)
      · exact absurd (hci.alive.symm.trans h) Bool.false_ne_true

/-! ## Packets -/

/-- A packet does not bring its address to an established connection whose keep-alive is not armed. -/
def HandshakeFits (s : Signaling) (fromAddr fromPort : Nat) (pkt : SignalingHandshake) (connId : Int) : Prop :=
  ∀ ci, s.connections.find? connId = some ci →
    match pkt.kind with
    | .offer => ci.StaysSupervised (ci.offerAddress fromAddr fromPort pkt.mappedAddr)
    | .accept => ci.StaysSupervised (ci.acceptAddress fromAddr fromPort pkt.mappedAddr)
    | .check | .checkAck | .unknown => True

def ControlFits (s : Signaling) (fromAddr fromPort : Nat) (pkt : SignalingControl) (connId : Int) : Prop :=
  ∀ ci, s.connections.find? connId = some ci →
    match pkt.kind with
    | .activationRequest => ci.StaysSupervised (ci.offerAddress fromAddr fromPort pkt.mappedAddr)
    | .activationAck => ci.StaysSupervised (ci.ackAddress pkt.mappedAddr)
    | .established | .close | .unknown => True

/-- Replace a connection by one that is timed. -/
theorem Covered.replace (hs : s.Covered) (hci : ci.Timed) : (s.modifyConnection connId fun _ => ci).Covered :=
  hs.modify fun _ _ _ => hci

variable {fromAddr fromPort : Nat} {now : Int} {ctxId : Int} {npid : OrbisNpId} {pkt : SignalingControl}
  {rnd : Nat} {acts : List PendingActivation} {resolvePeer : List UInt8 → Option (Nat × Nat)}

theorem Covered.receiveHandshake (hs : s.Covered) {pkt : SignalingHandshake}
    (hfits : s.HandshakeFits fromAddr fromPort pkt connId) :
    (s.receiveHandshake fromAddr fromPort pkt connId now).1.Covered := by
  unfold Signaling.receiveHandshake
  split
  · exact hs
  rename_i ci hfind
  have hci := hs.timed connId ci hfind
  have hheard : ConnectionInfo.Timed { ci with lastPeerRxUs := now } :=
    ⟨⟨hci.handshake, hci.lingering, hci.keepAlive⟩, hci.fired, hci.alive⟩
  have hfits := hfits ci hfind
  rw [hs.callout hfind]
  cases hkind : pkt.kind with
  | offer =>
    rw [hkind] at hfits
    exact hs.replace (hheard.offered hfits)
  | accept =>
    rw [hkind] at hfits
    exact hs.replace (hheard.accepted fun hest hlinger haddr =>
      hfits hest hlinger (ConnectionInfo.acceptAddress_hasPeerAddress.mp haddr))
  | check => exact hs.replace hheard.checked
  | checkAck => exact hs.replace hheard
  | unknown => exact hs.replace hheard

theorem Covered.handshakePacket (hs : s.Covered) {pkt : SignalingHandshake}
    (hfits : s.HandshakeFits fromAddr fromPort pkt connId) :
    (s.handleHandshakePacket fromAddr fromPort pkt connId now).Covered := by
  have hreceived : (s.receiveHandshake fromAddr fromPort pkt connId now).1.Covered := hs.receiveHandshake hfits
  unfold handleHandshakePacket
  generalize s.receiveHandshake fromAddr fromPort pkt connId now = r at hreceived
  obtain ⟨s₁, reply, establishes⟩ := r
  have hdone : ∀ s₂ : Signaling, s₂.Covered →
      (if establishes then s₂.establishConnection connId true now else s₂).Covered := by
    intro s₂ hs₂
    split
    · exact hs₂.establishConnection true now
    · exact hs₂
  cases reply with
  | none => exact hdone s₁ hreceived
  | some reply =>
    refine hdone (s₁.sendReply connId reply) ?_
    unfold sendReply
    split
    · exact hreceived
    · exact hreceived.congr (sendHandshakeLocked_tables _)

/-- A connection is added while callouts can be armed. -/
theorem Covered.insert (hs : s.Covered) (hon : s.initialized = true) (hci : ci.Timed) :
    (s.insertConnection connId ci).Covered where
  active := hs.active
  off := fun hoff => absurd (hon.symm.trans hoff) (by decide)
  timed := fun c ci' hfind => by
    rw [find?_insertConnection] at hfind
    split at hfind
    · cases hfind
      exact hci
    · exact hs.timed c ci' hfind

theorem Covered.setNpid (hs : s.Covered) (key : Int × OrbisNpId) : (s.setNpidToConn key connId).Covered :=
  ⟨hs.active, hs.off, hs.timed⟩

theorem Covered.allocate (hs : s.Covered) (rnd : Nat) : (s.allocateConnectionIdLocked rnd).2.Covered :=
  ⟨hs.active, hs.off, hs.timed⟩

/-- Where there is a context, the library is initialized. -/
theorem Covered.on (hs : s.Covered) {ctx : NpSignalingContext}
    (hfind : s.contexts.find? ctxId = some ctx) : s.initialized = true := by
  by_contra hoff
  rw [(hs.off (Bool.eq_false_iff.mpr hoff)).1] at hfind
  cases hfind

theorem timed_create {serial : Nat} {onlineId : OrbisNpOnlineId} {status : ConnStatus} :
    ConnectionInfo.Timed { ConnectionInfo.create serial connId ctxId with
      npid := npid, onlineId := onlineId, status := status } where
  handshake := fun h => absurd rfl h
  lingering := nofun
  keepAlive := nofun
  fired := fun h => by cases h with | inl h => cases h | inr h => cases h
  alive := rfl

theorem Covered.createAnswerer (hs : s.Covered)
    (howner : s.FindsOwner (idString pkt.onlineIdTo) ctxId) : (s.createAnswerer pkt ctxId rnd).2.Covered ∧
    ∀ connId, (s.createAnswerer pkt ctxId rnd).1 = some connId →
      ∀ ci, (s.createAnswerer pkt ctxId rnd).2.connections.find? connId = some ci → ci.state = .inactive := by
  unfold Signaling.createAnswerer
  split
  · exact ⟨hs, nofun⟩
  rename_i hctx
  unfold FindsOwner at howner
  rw [if_neg hctx] at howner
  obtain ⟨ctx, hfind, -⟩ := howner
  have hallocated := hs.allocate rnd
  split
  · next heq =>
    rw [heq] at hallocated
    exact ⟨hallocated, nofun⟩
  rename_i connId s' heq
  rw [heq] at hallocated
  have hon : s'.initialized = true := by
    have : (s.allocateConnectionIdLocked rnd).2.initialized = true := hs.on hfind
    rwa [heq] at this
  refine ⟨(hallocated.insert hon timed_create).setNpid _, ?_⟩
  intro c hc ci hfind
  cases hc
  have hnew : some (ConnectionInfo.createAnswerer s'.nextSerial connId ctxId pkt.onlineIdFrom) = some ci :=
    (find?_insertConnection.trans (if_pos rfl)).symm.trans hfind
  cases hnew
  rfl

theorem Covered.answerRequest (hs : s.Covered) (hstays : ∀ ci, s.connections.find? connId = some ci →
      ci.StaysSupervised (ci.offerAddress fromAddr fromPort pkt.mappedAddr)) :
    (s.answerRequest fromAddr fromPort pkt connId).1.Covered := by
  unfold Signaling.answerRequest
  split
  · exact hs
  rename_i ci hfind
  rw [hs.callout hfind]
  refine Covered.congr ?_ (sendToPeer_tables _)
  exact hs.replace ((hs.timed connId ci hfind).requested (hstays ci hfind))

theorem Covered.receiveControl (hs : s.Covered) (howner : s.FindsOwner (idString pkt.onlineIdTo) ctxId)
    (hfits : s.ControlFits fromAddr fromPort pkt connId) :
    (s.receiveControl fromAddr fromPort pkt connId ctxId rnd).1.Covered := by
  unfold Signaling.receiveControl
  cases hkind : pkt.kind with
  | activationRequest =>
    simp only
    split
    · have hanswerer : (s.createAnswerer pkt ctxId rnd).2.Covered ∧
          ∀ connId, (s.createAnswerer pkt ctxId rnd).1 = some connId → ∀ ci,
            (s.createAnswerer pkt ctxId rnd).2.connections.find? connId = some ci → ci.state = .inactive :=
        hs.createAnswerer howner
      obtain ⟨hcreated, hinactive⟩ := hanswerer
      split
      · next heq =>
        rw [heq] at hcreated
        exact hcreated
      rename_i connId' s' heq
      rw [heq] at hcreated hinactive
      refine hcreated.answerRequest fun ci hfind hest => ?_
      exact absurd ((hinactive connId' rfl ci hfind).symm.trans hest) (by decide)
    · refine hs.answerRequest fun ci hfind => ?_
      have := hfits ci hfind
      rwa [hkind] at this
  | activationAck =>
    refine hs.modify fun ci hfind hci => ?_
    have hstays := hfits ci hfind
    rw [hkind] at hstays
    exact hci.withAddress hstays ⟨rfl, rfl, rfl, rfl, rfl, rfl⟩
  | established =>
    simp only
    split
    · exact hs
    · exact hs.modify fun ci _ hci =>
        ⟨⟨hci.handshake, hci.lingering, hci.keepAlive⟩, hci.fired, hci.alive⟩
  | close =>
    simp only
    split <;> exact hs
  | unknown => exact hs

theorem Covered.controlPacket (hs : s.Covered) (howner : s.FindsOwner (idString pkt.onlineIdTo) ctxId)
    (hfits : s.ControlFits fromAddr fromPort pkt connId) :
    (s.handleControlPacket fromAddr fromPort pkt connId ctxId rnd now).Covered := by
  have hreceived : (s.receiveControl fromAddr fromPort pkt connId ctxId rnd).1.Covered :=
    hs.receiveControl howner hfits
  unfold handleControlPacket
  simp only
  split
  · exact hreceived
  · exact hreceived.startHandshake
  · exact hreceived.establishConnection false now
  · exact hreceived.congr (dispatchConnectionEvent_tables _)
  · exact hreceived.close _

/-! ## Contexts -/

/-- Contexts may change while the library is initialized. -/
theorem Covered.withContexts (hs : s.Covered) (hon : s.initialized = true)
    (contexts : StdMap Int NpSignalingContext) : Covered { s with contexts := contexts } :=
  ⟨hs.active, fun hoff => absurd (hon.symm.trans hoff) (by decide), hs.timed⟩

theorem Covered.addContext (hs : s.Covered) (hadds : s.AddsContext s') : s'.Covered := by
  obtain rfl | ⟨hon, n, ctx, -, -, rfl⟩ := hadds
  · exact hs
  · have hnamed : Covered { s with lastAssignedContextId := n } := ⟨hs.active, hs.off, hs.timed⟩
    exact hnamed.withContexts hon _

theorem Covered.removeAll (hs : s.Covered) (connIds : List Int) : (s.removeConnectionsLocked connIds).Covered := by
  induction connIds generalizing s with
  | nil => exact hs
  | cons connId connIds ih => exact ih hs.remove

theorem Covered.closeAll (hs : s.Covered) (connIds : List Int) (errorCode : EventData) :
    (connIds.foldl (fun s connId => s.closeConnectionAndDispatchDead connId errorCode) s).Covered := by
  induction connIds generalizing s with
  | nil => exact hs
  | cons connId connIds ih => exact ih (hs.close errorCode)

theorem Covered.eraseContext (hs : s.Covered) (ctxId : Int) : (s.eraseContext ctxId).Covered := by
  have hremoved : (s.removeContextConnectionsLocked ctxId).Covered := hs.removeAll _
  refine ⟨hremoved.active, fun hoff => ?_, hremoved.timed⟩
  obtain ⟨hcontexts, hconnections⟩ := hremoved.off hoff
  refine ⟨StdMap.ext_find? fun c => ?_, hconnections⟩
  show ((s.removeContextConnectionsLocked ctxId).contexts.erase ctxId).find? c = _
  rw [StdMap.find?_erase, hcontexts]
  exact ite_self _

theorem Covered.deleteContext (hs : s.Covered) (ctxId : Int) : (s.deleteContext ctxId).2.Covered := by
  unfold Signaling.deleteContext
  split
  · exact hs
  · exact (hs.closeAll _ _).eraseContext ctxId

/-! ## Activation -/

/-- An activation that finds a connection finds an established one, whose keep-alive is armed if it lingers. -/
def ActivationFits (s : Signaling) (ctxId : Int) (npid : OrbisNpId) : Prop :=
  ∀ connId ci, s.reusableConnection ctxId npid = some (connId, ci) →
    ci.state = .established ∧ (ci.deactivateLingering → ci.HasPeerAddress → ci.stepCalloutArmed)

theorem Covered.queue (hs : s.Covered) (npid : OrbisNpId) (startHandshake : Bool) :
    (s.queueActivationLocked connId npid startHandshake).Covered :=
  ⟨hs.active, hs.off, hs.timed⟩

theorem Covered.reactivate (hs : s.Covered) (hfind : s.connections.find? connId = some ci)
    (hest : ci.state = .established)
    (harmed : ci.deactivateLingering → ci.HasPeerAddress → ci.stepCalloutArmed) :
    (s.reactivate connId ci npid).2.Covered := by
  have hmodified : (s.modifyConnection connId fun ci =>
      ConnectionInfo.clearLingerAndTimeoutLocked { ci with locallyActivated := true }).Covered := by
    refine hs.modify fun ci' hfind' hci' => ?_
    obtain rfl := Option.some.inj (hfind.symm.trans hfind')
    exact hci'.reactivate hest harmed
  unfold Signaling.reactivate
  split
  · exact hmodified.queue npid _
  · exact hmodified

theorem Covered.dropInactive (hs : s.Covered) (ctxId : Int) (npid : OrbisNpId) :
    (s.dropInactive ctxId npid).Covered := by
  unfold Signaling.dropInactive
  split
  · exact hs
  split
  · exact hs
  split
  · exact hs.remove
  · exact hs

theorem timed_createActivated {serial : Nat} :
    (ConnectionInfo.createActivated true serial connId ctxId npid).Timed where
  handshake := fun _ _ => rfl
  lingering := nofun
  keepAlive := nofun
  fired := fun h => by cases h with | inl h => cases h | inr h => cases h
  alive := rfl

theorem removeConnectionLocked_initialized :
    (s.removeConnectionLocked connId).initialized = s.initialized := by
  unfold removeConnectionLocked
  split <;> rfl

theorem dropInactive_initialized : (s.dropInactive ctxId npid).initialized = s.initialized := by
  unfold Signaling.dropInactive
  split
  · rfl
  split
  · rfl
  split
  · exact removeConnectionLocked_initialized
  · rfl

theorem Covered.createActivated (hs : s.Covered) (hon : s.initialized = true) :
    (s.createActivated ctxId npid rnd).2.Covered := by
  have hallocated := (hs.dropInactive ctxId npid).allocate rnd
  have hon' : ((s.dropInactive ctxId npid).allocateConnectionIdLocked rnd).2.initialized = true :=
    dropInactive_initialized.trans hon
  unfold Signaling.createActivated
  split
  · next heq =>
    rw [heq] at hallocated
    exact hallocated
  rename_i connId s' heq
  rw [heq] at hallocated hon'
  rw [hallocated.active, hon']
  exact ((hallocated.insert hon' timed_createActivated).setNpid _).queue _ _

theorem Covered.activate (hs : s.Covered) {ctxId now : Int} {peerNpid : Option OrbisNpId}
    (hfits : ∀ npid, (s.admitActivation ctxId peerNpid now).1 = .ok npid → s.ActivationFits ctxId npid) :
    (s.activate ctxId peerNpid now rnd).2.Covered := by
  have hadmitted : (s.admitActivation ctxId peerNpid now).2.Covered := by
    rcases @admitActivation_state s ctxId now peerNpid with h | ⟨hon, ctx, ctx', -, -, h⟩
    · rw [h]
      exact hs
    · rw [h]
      exact hs.withContexts hon _
  unfold Signaling.activate
  split
  · next heq =>
    rw [heq] at hadmitted
    exact hadmitted
  rename_i npid s' heq
  obtain ⟨hon, -, -, ctx, ctx', -, -, rfl⟩ := admitActivation_ok heq
  rw [heq] at hadmitted hfits
  have hfits := hfits npid rfl
  split
  · next connId ci hreuse =>
    obtain ⟨-, hfind, -⟩ := reusableConnection_eq_some hreuse
    obtain ⟨hest, harmed⟩ := hfits connId ci hreuse
    exact hadmitted.reactivate hfind hest harmed
  · have hcreated : ((s.insertContext ctxId ctx').createActivated ctxId npid rnd).2.Covered :=
      hadmitted.createActivated hon
    split
    · next heq =>
      rw [heq] at hcreated
      exact hcreated
    rename_i heq
    rw [heq] at hcreated
    exact hcreated

theorem Covered.activateConnection (hs : s.Covered) {ctxId now : Int} {peerNpid : Option OrbisNpId}
    (hfits : ∀ npid, (s.admitActivation ctxId peerNpid now).1 = .ok npid → s.ActivationFits ctxId npid) :
    (s.activateConnection ctxId peerNpid now rnd).2.Covered := by
  have hactivated : (s.activate ctxId peerNpid now rnd).2.Covered := hs.activate hfits
  unfold Signaling.activateConnection
  split
  · next heq =>
    rw [heq] at hactivated
    exact hactivated
  rename_i heq
  rw [heq] at hactivated
  split
  · exact hactivated.establishConnection false now
  · exact hactivated

theorem Covered.activateConnectionA (hs : s.Covered) {ctxId now : Int} {peerAddr : Option (Nat × Nat)} :
    (s.activateConnectionA ctxId peerAddr now rnd).2.Covered := by
  obtain h | ⟨hon, ctx, s₁, -, rfl, h⟩ := @activateConnectionA_cases s ctxId now peerAddr rnd
  · rw [h]
    exact hs
  · have hallocated : ((s.chargeActivation ctxId ctx now).2.allocateConnectionIdLocked rnd).2.Covered :=
      (hs.withContexts hon _).allocate rnd
    obtain h | h | ⟨-, connId, s₂, halloc, h⟩ := h
    · rw [h]
      exact hs.withContexts hon _
    · rw [h]
      exact hallocated
    · have hon' : ((s.chargeActivation ctxId ctx now).2.allocateConnectionIdLocked rnd).2.initialized = true := hon
      rw [h]
      rw [halloc] at hallocated hon'
      exact hallocated.insert hon' timed_create

theorem Covered.deactivateConnection (hs : s.Covered) (ctxId : Int) :
    (s.deactivateConnection ctxId connId).2.Covered := by
  unfold Signaling.deactivateConnection
  split
  · exact hs
  · exact hs.deactivateFaithful

theorem Covered.terminateConnection (hs : s.Covered) (ctxId : Int) :
    (s.terminateConnection ctxId connId).2.Covered := by
  unfold Signaling.terminateConnection
  split
  · exact hs
  · exact hs.terminateFaithful.remove

/-! ## Pending activations -/

/-- An established connection whose keep-alive is due as soon as it has an address, and not armed. -/
def Unprobed (ci : ConnectionInfo) : Prop :=
  ci.state = .established ∧ ¬ci.deactivateLingering ∧ ¬ci.stepCalloutArmed

/-- No endpoint is resolved for an unprobed connection. A handshake that is to start arms the callouts itself. -/
def PendingFits (s : Signaling) (resolvePeer : List UInt8 → Option (Nat × Nat)) (acts : List PendingActivation) :
    Prop :=
  ∀ act ∈ acts, act.startHandshake = false → ∀ ci, s.connections.find? act.connId = some ci → Unprobed ci →
    ∀ addr port, resolvePeer act.peerOnlineId = some (addr, port) → addr = 0 ∨ port = 0

/-- Every connection that is unprobed after some steps was unprobed before. -/
def KeepsProbes (s s' : Signaling) : Prop :=
  ∀ c ci', s'.connections.find? c = some ci' → Unprobed ci' → ∃ ci, s.connections.find? c = some ci ∧ Unprobed ci

theorem KeepsProbes.congr {s₀ : Signaling} (hkeeps : KeepsProbes s₀ s)
    (h : s'.toSignalingTables = s.toSignalingTables) : KeepsProbes s₀ s' := by
  unfold KeepsProbes
  rw [h]
  exact hkeeps

theorem KeepsProbes.refl : KeepsProbes s s := fun _ ci hfind hci => ⟨ci, hfind, hci⟩

theorem KeepsProbes.trans {s'' : Signaling} (h : KeepsProbes s s') (h' : KeepsProbes s' s'') : KeepsProbes s s'' := by
  intro c ci'' hfind hci''
  obtain ⟨ci', hfind', hci'⟩ := h' c ci'' hfind hci''
  exact h c ci' hfind' hci'

theorem keepsProbes_modify {f : ConnectionInfo → ConnectionInfo}
    (hf : ∀ ci, s.connections.find? connId = some ci → Unprobed (f ci) → Unprobed ci) :
    KeepsProbes s (s.modifyConnection connId f) := by
  intro c ci' hfind hci'
  obtain ⟨hold, -⟩ | ⟨ci, rfl, hold, rfl⟩ := find?_modifyConnection_eq_some hfind
  · exact ⟨ci', hold, hci'⟩
  · exact ⟨ci, hold, hf ci hold hci'⟩

theorem PendingFits.mono
    (hfits : s.PendingFits resolvePeer acts) (hkeeps : KeepsProbes s s') : s'.PendingFits resolvePeer acts := by
  intro act hact hstart ci' hfind hci'
  obtain ⟨ci, hfind', hci⟩ := hkeeps _ ci' hfind hci'
  exact hfits act hact hstart ci hfind' hci

/-- Establishing a connection arms its keep-alive or leaves it as it was. -/
theorem unprobed_of_establish {hint : Bool} (h : Unprobed (ci.establish true hint now).1) : Unprobed ci := by
  have hhinted : ∀ ci' : ConnectionInfo, ci' = (if hint then { ci with peerActivated := true } else ci) →
      Unprobed ci' → Unprobed ci := by
    rintro ci' rfl h
    split at h <;> exact h
  unfold ConnectionInfo.establish at h
  simp only at h
  refine hhinted _ rfl ?_
  generalize (if hint then { ci with peerActivated := true } else ci) = hinted at h ⊢
  split at h
  · exact absurd rfl h.2.2
  · exact h

theorem keepsProbes_establishConnection (hs : s.Covered) {hint : Bool} :
    KeepsProbes s (s.establishConnection connId hint now) := by
  have hsection : KeepsProbes s (s.establish connId hint now).1 := by
    unfold Signaling.establish
    split
    · exact .refl
    rename_i ci hfind
    have hmodified : KeepsProbes s
        (s.modifyConnection connId fun _ => (ci.establish s.calloutCtxActive hint now).1) := by
      rw [hs.callout hfind]
      refine keepsProbes_modify fun ci' hfind' h => ?_
      obtain rfl := Option.some.inj (hfind.symm.trans hfind')
      exact unprobed_of_establish h
    simp only
    split
    · exact hmodified.congr (sendToPeer_tables _)
    · exact hmodified
  exact hsection.congr establishConnection_tables

/-- A connection whose handshake starts is not established. -/
theorem keepsProbes_startHandshake : KeepsProbes s (s.startHandshakeInitiator connId) := by
  refine KeepsProbes.congr (keepsProbes_modify fun ci _ h => ?_) startHandshakeInitiator_tables
  obtain ⟨hest, -⟩ := h
  unfold ConnectionInfo.startHandshake ConnectionInfo.armHandshakeCallouts ConnectionInfo.armStepCalloutLocked
    ConnectionInfo.armTimeoutCalloutLocked at hest
  repeat' split at hest
  all_goals cases hest

/-- One turn of the loop. -/
theorem Covered.processActivation (hs : s.Covered)
    {act : PendingActivation} (hfits : s.PendingFits resolvePeer (act :: acts)) :
    (s.processActivation resolvePeer now act).Covered ∧
      KeepsProbes s (s.processActivation resolvePeer now act) := by
  unfold Signaling.processActivation
  split
  · exact ⟨hs, .refl⟩
  rename_i hlive
  have hlive : s.isLive act.connId = true := by simpa using hlive
  split
  · exact ⟨hs, .refl⟩
  rename_i addr port hresolved
  split
  · exact ⟨hs, .refl⟩
  rename_i hnonzero
  have hsent := sendActivation_tables addr port hlive
  have hprobes : KeepsProbes s (s.sendActivation act.connId addr port).1 := by
    refine KeepsProbes.congr (keepsProbes_modify fun ci _ h => ?_) hsent
    exact h
  split
  · next heq =>
    have hsome := sendActivation_isSome addr port hlive
    rw [heq] at hsome
    cases hsome
  · next s' alreadyEstablished heq =>
    rw [heq] at hsent hprobes
    cases hstart : act.startHandshake with
    | true =>
      refine ⟨?_, hprobes.trans keepsProbes_startHandshake⟩
      -- Between the two sections the connection may be unsupervised.
      refine Covered.congr ?_ (startHandshakeInitiator_tables.trans (modifyConnection_congr hsent _))
      rw [modifyConnection_modifyConnection]
      refine hs.modify fun ci hfind hci => ?_
      rw [show s'.calloutCtxActive = true by rw [hsent]; exact hs.callout hfind]
      exact ConnectionInfo.timed_armHandshakeCallouts (by decide) (fun h => hci.fired (.inr h)) hci.alive
    | false =>
      have hstored : s'.Covered := by
        refine Covered.congr (hs.modify fun ci hfind hci => ?_) hsent
        refine hci.withAddress (fun hest hlinger _ => ?_) ⟨rfl, rfl, rfl, rfl, rfl, rfl⟩
        by_contra harmed
        exact hnonzero (hfits act List.mem_cons_self hstart ci hfind ⟨hest, hlinger, harmed⟩ addr port hresolved)
      simp only [Bool.false_eq_true, if_false]
      split
      · exact ⟨hstored.establishConnection false now,
          hprobes.trans (keepsProbes_establishConnection hstored)⟩
      · exact ⟨hstored, hprobes⟩

theorem Covered.processAll (hs : s.Covered) (hfits : s.PendingFits resolvePeer acts) :
    (acts.foldl (fun s act => s.processActivation resolvePeer now act) s).Covered := by
  induction acts generalizing s with
  | nil => exact hs
  | cons act acts ih =>
    have hprocessed : (s.processActivation resolvePeer now act).Covered ∧
        KeepsProbes s (s.processActivation resolvePeer now act) := hs.processActivation hfits
    have hrest : s.PendingFits resolvePeer acts := fun act' hact => hfits act' (List.mem_cons_of_mem _ hact)
    exact ih hprocessed.1 (hrest.mono hprocessed.2)

theorem Covered.processPending (hs : s.Covered) (hfits : s.PendingFits resolvePeer s.pendingActivations) :
    (s.processPendingActivations resolvePeer now).Covered :=
  Covered.processAll ⟨hs.active, hs.off, hs.timed⟩ hfits

/-! ## Runs -/

/-- Steps that leave no connection without its timer. An activation, an endpoint and a packet can do so; the
    callouts and the other calls cannot. -/
def KeepsTimers (s : Signaling) : SignalingAction → Prop
  | .activate ctxId peerNpid now _ =>
    ∀ npid, (s.admitActivation ctxId peerNpid now).1 = .ok npid → s.ActivationFits ctxId npid
  | .processPending resolvePeer _ => s.PendingFits resolvePeer s.pendingActivations
  | .handshake fromAddr fromPort pkt connId _ => s.HandshakeFits fromAddr fromPort pkt connId
  | .control fromAddr fromPort pkt connId _ _ _ => s.ControlFits fromAddr fromPort pkt connId
  | _ => True

theorem covered_start : start.Covered := ⟨rfl, fun _ => ⟨rfl, rfl⟩, fun _ _ hfind => by cases hfind⟩

theorem Covered.initialized (hs : s.Covered) : s.sceNpSignalingInitialize.Covered := by
  unfold sceNpSignalingInitialize
  split
  · exact hs
  · exact ⟨rfl, nofun, hs.timed⟩

theorem Covered.terminate (hs : s.Covered) : s.sceNpSignalingTerminate.Covered := by
  unfold sceNpSignalingTerminate
  split
  · exact hs
  · exact ⟨rfl, fun _ => ⟨rfl, rfl⟩, fun _ _ hfind => by cases hfind⟩

theorem Covered.perform (hs : s.Covered) {a : SignalingAction} (hkeeps : s.KeepsTimers a)
    (hstep : s.perform a = some s') : s'.Covered := by
  cases a with
  | init =>
    cases hstep
    exact hs.initialized
  | term =>
    cases hstep
    exact hs.terminate
  | createContext npid callback sdk now =>
    cases hstep
    exact hs.addContext createContext_adds
  | createContextA npid callback sdk now =>
    cases hstep
    exact hs.addContext createContextA_adds
  | deleteContext ctxId =>
    cases hstep
    exact hs.deleteContext ctxId
  | activate ctxId peerNpid now rnd =>
    cases hstep
    exact hs.activateConnection hkeeps
  | activateA ctxId peerAddr now rnd =>
    cases hstep
    exact hs.activateConnectionA
  | deactivate ctxId connId =>
    cases hstep
    exact hs.deactivateConnection ctxId
  | terminateConnection ctxId connId =>
    cases hstep
    exact hs.terminateConnection ctxId
  | processPending resolvePeer now =>
    cases hstep
    exact hs.processPending hkeeps
  | handshake fromAddr fromPort pkt connId now =>
    simp only [Signaling.perform] at hstep
    split at hstep
    · cases hstep
      exact hs.handshakePacket hkeeps
    · cases hstep
  | control fromAddr fromPort pkt connId ctxId rnd now =>
    simp only [Signaling.perform] at hstep
    split at hstep
    · next hfinds =>
      cases hstep
      exact hs.controlPacket hfinds.2 hkeeps
    · cases hstep
  | timeout connId =>
    cases hstep
    exact hs.timeout
  | step connId now =>
    cases hstep
    exact hs.stepExpired now
  | externalIp addr =>
    cases hstep
    exact hs.congr rfl

theorem covered_of_reaches {h : List StagedEvent} (hreach : Reaches Signaling.step KeepsTimers start s h) :
    s.Covered := by
  refine hreach.invariant (P := fun s _ => s.Covered) covered_start ?_
  intro s h a s' es hs hkeeps hstep
  exact hs.perform hkeeps (step_eq_some hstep)

/-- No connection stays pending or established without the timer that would end or probe it. -/
theorem supervised_of_keepsTimers {h : List StagedEvent}
    (hreach : Reaches Signaling.step KeepsTimers start s h) :
    ∀ connId ci, s.connections.find? connId = some ci → ci.Supervised := by
  intro connId ci hfind
  exact ((covered_of_reaches hreach).timed connId ci hfind).toSupervised

/-! ## Two runs -/

/-- The state after the owner has created a context. -/
def withOwner : Signaling := (start.sceNpSignalingInitialize.createContext (some ownerNpid) true 0 0).2

theorem reaches_withOwner : Reaches Signaling.step KeepsTimers start withOwner [] := by
  have hinit : Reaches Signaling.step KeepsTimers start start.sceNpSignalingInitialize [] :=
    Reaches.start.step (a := .init) (by exact trivial) rfl
  exact hinit.step (a := .createContext (some ownerNpid) true 0 0) (by exact trivial) rfl

theorem withOwner_keepsTimers : withOwner.KeepsTimers (.activate 1 (some peerNpid) 0 0) := by
  intro npid _ connId ci hreuse
  cases (reusableConnection_eq_some hreuse).1

/-- A packet from the peer for the connection. -/
def fromPeer (kind : HandshakeKind) : SignalingHandshake :=
  ⟨kind, peerNpid.handle.data, ownerNpid.handle.data, 1, 0, 0⟩

/-- The state after the owner has activated a connection and the peer has accepted it. -/
def withAccept : Signaling :=
  (withOwner.activateConnection 1 (some peerNpid) 0 0).2.handleHandshakePacket 0x100007f 9303 (fromPeer .accept) 1 1

/-- The state after the peer has confirmed the connection, which is established then. -/
def withPeer : Signaling := withAccept.handleHandshakePacket 0x100007f 9303 (fromPeer .checkAck) 1 2

theorem reaches_withPeer : ∃ h, Reaches Signaling.step KeepsTimers start withPeer h := by
  have hactivated : Reaches Signaling.step KeepsTimers start
      (withOwner.activateConnection 1 (some peerNpid) 0 0).2 [] :=
    reaches_withOwner.step withOwner_keepsTimers rfl
  have hpending : ∀ e ∈ (withOwner.activateConnection 1 (some peerNpid) 0 0).2.connections.entries,
      e.2.state ≠ .established := by decide
  have haccept : (withOwner.activateConnection 1 (some peerNpid) 0 0).2.KeepsTimers
      (.handshake 0x100007f 9303 (fromPeer .accept) 1 1) := by
    intro ci hfind hest
    exact absurd hest (hpending (1, ci) (StdMap.mem_entries_iff.2 hfind))
  have hcheckAck : withAccept.KeepsTimers (.handshake 0x100007f 9303 (fromPeer .checkAck) 1 2) :=
    fun _ _ => trivial
  exact ⟨_, (hactivated.step haccept rfl).step hcheckAck rfl⟩

theorem withPeer_keepsTimers : withPeer.KeepsTimers (.activate 1 (some peerNpid) 3 0) := by
  have hestablished : ∀ e ∈ withPeer.connections.entries,
      e.2.state = .established ∧ ¬e.2.deactivateLingering := by decide
  intro npid _ connId ci hreuse
  obtain ⟨-, hfind, -⟩ := reusableConnection_eq_some hreuse
  have hci := hestablished (connId, ci) (StdMap.mem_entries_iff.2 hfind)
  exact ⟨hci.1, fun hlinger => absurd hlinger hci.2⟩

/-- An established connection that is activated again keeps its keep-alive. -/
theorem supervised_afterActivation : ∃ s h ci, Reaches Signaling.step KeepsTimers start s h ∧
    s.connections.find? 1 = some ci ∧ ci.state = .established ∧ ci.HasPeerAddress ∧ ci.Supervised := by
  obtain ⟨h, hpeer⟩ := reaches_withPeer
  have hreach := hpeer.step withPeer_keepsTimers rfl
  have hfound : ((withPeer.activateConnection 1 (some peerNpid) 3 0).2.connections.find? 1).any
      (fun ci => ci.state = .established ∧ ci.HasPeerAddress) = true := by decide
  obtain ⟨ci, hfind, hci⟩ := (Option.any_eq_true _ _).mp hfound
  obtain ⟨hstate, haddress⟩ := of_decide_eq_true hci
  exact ⟨_, _, ci, hreach, hfind, hstate, haddress, supervised_of_keepsTimers hreach 1 ci hfind⟩

/-- The second activation clears the timeout that the first one armed, and the peer is not resolved. -/
def activateTwice : List SignalingAction :=
  [.init, .createContext (some ownerNpid) true 0 0, .activate 1 (some peerNpid) 0 0,
    .activate 1 (some peerNpid) 0 0, .processPending (fun _ => none) 0]

theorem unsupervised_afterActivateTwice : ∃ s h, Reaches Signaling.step (fun _ _ => True) start s h ∧
    s.calloutCtxActive = true ∧ s.pendingActivations = [] ∧
      ∃ connId ci, s.connections.find? connId = some ci ∧ ¬ci.Supervised := by
  have hrun : (runAllowed Signaling.step (fun _ _ => True) start [] activateTwice).any (fun r =>
      r.1.calloutCtxActive && (r.1.pendingActivations = [] &&
        (r.1.connections.find? 1).any fun ci => ci.state = .sendingOffer && !ci.timeoutCalloutArmed)) = true := by
    decide
  obtain ⟨⟨s, h⟩, hrun, hs⟩ := (Option.any_eq_true _ _).mp hrun
  rw [Bool.and_eq_true, Bool.and_eq_true, Option.any_eq_true] at hs
  obtain ⟨hactive, hpending, ci, hfind, hci⟩ := hs
  rw [Bool.and_eq_true, decide_eq_true_eq, Bool.not_eq_true'] at hci
  refine ⟨s, h, Reaches.start.of_runAllowed hrun, hactive, of_decide_eq_true hpending, 1, ci, hfind, ?_⟩
  intro hsupervised
  have harmed := hsupervised.handshake (by rw [hci.1]; decide) (by rw [hci.1]; decide)
  exact absurd (hci.2.symm.trans harmed) Bool.false_ne_true

end Signaling

end NpSignaling
