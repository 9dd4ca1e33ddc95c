/-
  Andri.Client.Relay

  A UDP test from the client's stamps to the Result the client reads.  The network
  between a client and its session may lose, delay, reorder and repeat datagrams
  but makes none up: it delivers what it has taken from the client, by position.

  Such a run is a run of the joint system, and the two data paths in it are a
  sender and a receiver on a link.
-/
import Andri.Client.Contract
import Andri.Client.Flow
import Andri.Lib.Simulation
import Andri.Udp.Link

namespace Andri

open Lib

/-! ## A network that makes nothing up -/

/-- A client and its session, with the network between them: the datagrams it has taken
    from the client, the positions of those delivered, and how many were stamped. -/
structure Relay where
  joint : Joint
  sent : List (List Byte)
  arrivals : List ℕ
  stamped : ℕ

/-- The client is in its UDP drive. -/
def ClientPhase.DrivesUdp : ClientPhase → Prop
  | .driving _ (.udp _) => True
  | _ => False

/-- Steps of either end and of the network.  A datagram of the drive goes to the network,
    which delivers it later, if at all. -/
inductive RelayStep (su : Setup) : Relay → Relay → Prop
  | server {a : Relay} {w' : World} (h : ServerStep a.joint.world w') :
      RelayStep su a { a with joint := { a.joint with world := w' } }
  | client {a : Relay} {j' : Joint} (h : ClientStep su a.joint j')
      (hd : a.joint.client.DrivesUdp → ¬ j'.client.DrivesUdp) :
      RelayStep su a { a with joint := j' }
  | drive {a : Relay} {start : Start} {d d' : Udp.Drive} {net' : Net}
      (hp : a.joint.client = .driving start (.udp d))
      (h : Udp.Drive.Step su.neg { a.joint.world.net with dgrams := a.sent } d net' d') :
      RelayStep su a { a with
        joint := { a.joint with
          client := .driving start (.udp d')
          world := { a.joint.world with
            net := { a.joint.world.net with clock := net'.clock } } }
        sent := net'.dgrams
        stamped := d'.seq.getD a.stamped }
  | deliver {a : Relay} {i : ℕ} {buf : List Byte} (hi : a.sent[i]? = some buf) :
      RelayStep su a { a with
        joint := { a.joint with
          world := { a.joint.world with
            net := { a.joint.world.net with dgrams := a.joint.world.net.dgrams ++ [buf] } } }
        arrivals := a.arrivals ++ [i] }

/-- A client just accepted, and a network that has taken nothing. -/
def Relay.init : Relay := ⟨Joint.init, [], [], 0⟩

/-- The states a client, its session and the network can be in. -/
def RelayReachable (su : Setup) : Relay → Prop := Reachable (· = Relay.init) (RelayStep su)

/-- Seen from the socket, a datagram the network has taken is lost so far. -/
theorem Udp.Drive.Step.unheard {neg : Negotiate} {net net' : Net} {sent : List (List Byte)}
    {d d' : Udp.Drive} (h : Udp.Drive.Step neg { net with dgrams := sent } d net' d') :
    Udp.Drive.Step neg net d { net with clock := net'.clock } d' := by
  cases h with
  | start hnow hle => exact .start hnow hle
  | go hnow hbefore => exact .go hnow hbefore
  | finish hnow hpast => exact .finish hnow hpast
  | tick hnow hdue => exact .tick hnow hdue
  | send hmore hnow hlen => exact .lose hmore hnow
  | lose hmore hnow => exact .lose hmore hnow
  | sent hnone => exact .sent hnone

/-- Every step is one of the joint system. -/
theorem RelayStep.joint {su : Setup} {a a' : Relay} (h : RelayStep su a a') :
    JointStep su a.joint a'.joint := by
  cases h with
  | server h => exact .server h
  | client h hd => exact .client h
  | drive hp h => exact .client (.drive hp (.udp h.unheard))
  | deliver hi => exact .network _

theorem RelayReachable.joint {su : Setup} {a : Relay} (h : RelayReachable su a) :
    JointReachable su a.joint := by
  refine Reachable.invariant h (I := fun a => JointReachable su a.joint) ?_ ?_
  · rintro a rfl
    exact Reachable.start rfl
  · exact fun a a' ha hstep => ha.next hstep.joint

/-! ## The data paths are a link -/

/-- The sender of a link at the client: not started before the drive, and the drive itself. -/
def ClientPhase.Sends (d : Udp.Drive) : ClientPhase → Prop
  | .driving _ (.udp d') => d = d'
  | .greeting | .awaitingWelcome | .negotiating | .awaitingStart | .starting _ => d = .starting
  | _ => True

/-- The receiver of a link at the session: not started before the data path, the path
    itself, and past it what it returned. -/
structure World.Receives (w : World) (s : Udp.Serve) : Prop where
  before : w.session.phase.BeforeData → s = .starting
  running : ∀ n u, w.session.phase = .running n (.udp u) → s = u
  has : ∀ r, w.Has r → s = .returned r

/-- The link behind a relay.  Its clocks have moved with the data paths only. -/
structure Relay.Along (a : Relay) (k : Udp.Link) : Prop where
  out : k.out.dgrams = a.sent
  outClock : k.out.clock ≤ a.joint.world.net.clock
  inn : k.inn.dgrams = a.joint.world.net.dgrams
  innClock : k.inn.clock ≤ a.joint.world.net.clock
  arrivals : k.arrivals = a.arrivals
  stamped : k.stamped = a.stamped
  sends : a.joint.client.Sends k.sender
  receives : a.joint.world.Receives k.receiver

section Along

variable {su : Setup} {neg : Negotiate} {net net' out : Net}

/-- A step of the drive is one with an earlier clock. -/
theorem Udp.Drive.Step.earlier {d d' : Udp.Drive} (h : Udp.Drive.Step neg net d net' d')
    (hclock : out.clock ≤ net.clock) (hdgrams : out.dgrams = net.dgrams) :
    ∃ out', Udp.Drive.Step neg out d out' d' ∧ out'.clock ≤ net'.clock ∧
      out'.dgrams = net'.dgrams := by
  cases h with
  | start hnow hle => exact ⟨_, .start (hclock.trans hnow) hle, le_rfl, hdgrams⟩
  | go hnow hbefore => exact ⟨_, .go (hclock.trans hnow) hbefore, le_rfl, hdgrams⟩
  | finish hnow hpast => exact ⟨_, .finish (hclock.trans hnow) hpast, le_rfl, hdgrams⟩
  | tick hnow hdue => exact ⟨_, .tick (hclock.trans hnow) hdue, le_rfl, hdgrams⟩
  | send hmore hnow hlen =>
      refine ⟨_, .send hmore (hclock.trans hnow) hlen, le_rfl, ?_⟩
      rw [hdgrams]
  | lose hmore hnow => exact ⟨_, .lose hmore (hclock.trans hnow), le_rfl, hdgrams⟩
  | sent hnone => exact ⟨_, .sent hnone, hclock, hdgrams⟩

/-- So is a step of the receiver. -/
theorem Udp.Step.earlier {s s' : Udp.Serve} (h : Udp.Step neg net s net' s')
    (hclock : out.clock ≤ net.clock) (hdgrams : out.dgrams = net.dgrams) :
    ∃ out', Udp.Step neg out s out' s' ∧ out'.clock ≤ net'.clock ∧
      out'.dgrams = net'.dgrams := by
  cases h with
  | start hnow hle => exact ⟨_, .start (hclock.trans hnow) hle, le_rfl, hdgrams⟩
  | tick hnow hdue => exact ⟨_, .tick (hclock.trans hnow) hdue, le_rfl, hdgrams⟩
  | recv hbuf hnow hle =>
      exact ⟨_, .recv (hdgrams.trans hbuf) (hclock.trans hnow) hle, le_rfl, rfl⟩
  | finish hnow => exact ⟨_, .finish (hclock.trans hnow), le_rfl, hdgrams⟩

/-! ## The server's steps -/

section Server

variable {w w' : World} {s : Udp.Serve}

/-- A Result there is was there before, or is what the data path returned. -/
theorem World.Receives.has_step (h : w.Receives s)
    (hudp : ∀ n path, w.session.phase = .running n path → path.mode = .udp)
    (hstep : ServerStep w w') {r : TestResult} (hr : w'.Has r) : s = .returned r := by
  rcases hstep.has hr with hold | ⟨n, path, hp, hret⟩
  · exact h.has r hold
  · have hmode := hudp n path hp
    cases path with
    | tcp | file => cases hmode
    | udp u =>
        rw [h.running n u hp]
        cases u with
        | returned r' =>
            cases hret
            rfl
        | starting | selecting | stopped => cases hret

/-- A step of the server is a step of the receiver, or none. -/
theorem World.Receives.step {su : Setup} {j : Joint} (h : j.world.Receives s)
    (hagree : Agree su j) (hmode : su.neg.mode = .udp) (hstep : ServerStep j.world w') :
    (w'.Receives s ∧ w'.net.dgrams = j.world.net.dgrams ∧ w'.net.clock = j.world.net.clock) ∨
    (∃ s', s.onStop = some s' ∧ w'.Receives s' ∧ w'.net = j.world.net) ∨
    ∃ s', Udp.Step su.neg j.world.net s w'.net s' ∧ w'.Receives s' := by
  have hudp : ∀ n path, j.world.session.phase = .running n path → path.mode = .udp :=
    fun n path hp => (hagree.session.mode_eq hp).symm.trans hmode
  have hhas : ∀ r, w'.Has r → s = .returned r := fun r hr => h.has_step hudp hstep hr
  have hbound := hagree.session.sound.history.bound
  cases hstep with
  | @read x c' q htake hq =>
      have hcases := Session.onRead_cases hq
      cases hcases with
      | hello hs | negotiate hs =>
          refine .inl ⟨⟨fun _ => h.before ?_, fun n u hp => (by cases hp), hhas⟩, rfl, rfl⟩
          rw [hs]
          trivial
      | @run n hs =>
          obtain rfl : n = su.neg := hagree.session.request_eq (by rw [hs]; rfl)
          have hq : dispatch j.world.session su.neg = .running su.neg (.udp .starting) := by
            rw [dispatch_eq (hbound _ (by rw [hs]; rfl)), hmode]
            rfl
          have hstart := h.before (by rw [hs]; trivial)
          refine .inl ⟨⟨fun _ => hstart, fun n u hp => ?_, hhas⟩, rfl, rfl⟩
          cases hq.symm.trans hp
          exact hstart
      | unexpected | failed =>
          exact .inl ⟨⟨fun hb => hb.elim, fun n u hp => (by cases hp), hhas⟩, rfl, rfl⟩
      | tcpStop hs => cases hudp _ _ hs
      | drained hs =>
          exact .inl ⟨⟨fun hb => hb.elim, fun n u hp => (by cases hp), hhas⟩, rfl, rfl⟩
      | @udpStop n l x' hs =>
          have hs' := h.running n _ hs
          subst hs'
          refine .inr (.inl ⟨.stopped l, rfl, ⟨fun hb => hb.elim, fun n' u hp => ?_, ?_⟩, rfl⟩)
          · cases hp
            rfl
          · intro r hr
            cases hhas r hr
  | @write m q hq =>
      refine .inl ⟨⟨fun hb => h.before ?_, fun n u hp => ?_, hhas⟩, rfl, rfl⟩
      · change q.BeforeData at hb
        cases Phase.onWrite_cases hq with
        | welcome hp | start hp =>
            rw [hp]
            trivial
        | turnedAway | error | result => exact hb.elim
      · change q = _ at hp
        cases Phase.onWrite_cases hq <;> cases hp
  | @bind n hp port =>
      refine .inl ⟨⟨fun _ => h.before (by rw [hp]; trivial), fun n' u hp' => ?_, hhas⟩, rfl, rfl⟩
      change (bindData n port).phase = _ at hp'
      rw [bindData_phase] at hp'
      cases hp'
  | @data n path path' net' hp hdata =>
      obtain rfl : n = su.neg := hagree.session.request_eq (by rw [hp]; rfl)
      cases hdata with
      | tcp | file => cases hudp _ _ hp
      | @udp _ u u' hdata =>
          have hu := h.running _ u hp
          subst hu
          refine .inr (.inr ⟨u', hdata, ⟨fun hb => hb.elim, fun n u hp => ?_, fun r hr => ?_⟩⟩)
          · cases hp
            rfl
          · -- a path that takes a step has not returned
            have hret := hhas r hr
            rw [hret] at hdata
            cases hdata
  | @finish n path r hp hret =>
      refine .inl ⟨⟨fun hb => (afterData_not_beforeData path r hb).elim, fun n' u hp' => ?_, hhas⟩,
        rfl, rfl⟩
      exact absurd hp' (afterData_ne_running path r n' _)

theorem World.Receives.congr (h : w.Receives s) (hsession : w'.session = w.session)
    (hwritten : w'.ctrl.written = w.ctrl.written) : w'.Receives s := by
  obtain ⟨hbefore, hrunning, hhas⟩ := h
  refine ⟨fun hb => hbefore (hsession ▸ hb), fun n u hp => hrunning n u (hsession ▸ hp),
    fun r hr => hhas r ?_⟩
  rwa [World.Has, hsession, hwritten] at hr

end Server

/-! ## The client's steps -/

/-- A step of the client outside its UDP drive leaves the data plane, and what the session
    says of the receiver. -/
theorem Agree.sends_step {su : Setup} {j j' : Joint} {d : Udp.Drive} (h : Agree su j)
    (hmode : su.neg.mode = .udp) (hstep : ClientStep su j j')
    (hd : j.client.DrivesUdp → ¬ j'.client.DrivesUdp) (hs : j.client.Sends d) :
    j'.client.Sends d ∧ j'.world.session = j.world.session ∧
      j'.world.ctrl.written = j.world.ctrl.written ∧ j'.world.net = j.world.net := by
  have hplaced := h.placed
  cases hstep with
  | read hm hp =>
      refine ⟨?_, rfl, rfl, rfl⟩
      rcases h.onRead hm hp with ⟨hc, rfl⟩ | ⟨s, hc, -, rfl⟩ | ⟨r, hc, -, rfl⟩
      · rw [hc] at hs
        exact hs
      · rw [hc] at hs
        exact hs
      · trivial
  | write hp =>
      refine ⟨?_, rfl, rfl, rfl⟩
      cases hc : j.client with
      | greeting | negotiating =>
          rw [hc] at hp hs
          cases hp
          exact hs
      | starting start =>
          rw [hc] at hp hs
          cases hp
          show (ClientPhase.driving start (.entry su.neg.mode)).Sends d
          rw [hmode]
          exact hs
      | stopping =>
          rw [hc] at hp
          cases hp
          trivial
      | awaitingWelcome | awaitingStart | driving | awaitingResult | done | failed =>
          rw [hc] at hp
          cases hp
  | drive hp hstep =>
      rw [hp] at hplaced
      obtain ⟨hdrive, -⟩ := hplaced
      cases hstep with
      | tcp | file => cases hdrive.trans hmode
      | udp =>
          rw [hp] at hd
          exact absurd trivial (hd trivial)
  | driven => exact ⟨trivial, rfl, rfl, rfl⟩
  | close => exact ⟨hs, rfl, rfl, rfl⟩

/-! ## A relay is a link with a session around it -/

/-- A UDP test over the network is its link, step by step. -/
theorem relay_simulates {su : Setup} (hmode : su.neg.mode = .udp) :
    Simulates (RelayStep su) (Udp.Link.Step su.neg) (fun _ => True)
      (fun a k => JointReachable su a.joint ∧ a.Along k) (fun _ => False) where
  stays hoff _ := hoff
  moves := by
    rintro a a' k - ⟨hreach, halong⟩ hstep
    have hagree := hreach.agree
    have hreach' := hreach.next hstep.joint
    obtain ⟨hout, houtClock, hinn, hinnClock, harrivals, hstamped, hsends, hreceives⟩ := halong
    refine .inl ?_
    cases hstep with
    | server hstep =>
        rcases hreceives.step hagree hmode hstep with ⟨hsame, hdgrams, hclock⟩ |
          ⟨s', hstop, hnext, hnet⟩ | ⟨s', hserve, hnext⟩
        · refine ⟨k, .refl, hreach', hout, ?_, hinn.trans hdgrams.symm, ?_, harrivals, hstamped,
            hsends, hsame⟩
          · exact houtClock.trans_eq hclock.symm
          · exact hinnClock.trans_eq hclock.symm
        · refine ⟨_, .single (.stop hstop), hreach', hout, ?_, ?_, ?_, harrivals, hstamped, hsends,
            hnext⟩
          · exact houtClock.trans_eq (by rw [hnet])
          · exact hinn.trans (by rw [hnet])
          · exact hinnClock.trans_eq (by rw [hnet])
        · obtain ⟨inn', hserve', hclock, hdgrams⟩ := hserve.earlier hinnClock hinn
          exact ⟨_, .single (.serve hserve'), hreach', hout, houtClock.trans hserve.clock_le,
            hdgrams, hclock, harrivals, hstamped, hsends, hnext⟩
    | client hstep hd =>
        obtain ⟨hsends', hsession, hwritten, hnet⟩ := hagree.sends_step hmode hstep hd hsends
        refine ⟨k, .refl, hreach', hout, ?_, ?_, ?_, harrivals, hstamped, hsends',
          hreceives.congr hsession hwritten⟩
        · exact houtClock.trans_eq (by rw [hnet])
        · exact hinn.trans (by rw [hnet])
        · exact hinnClock.trans_eq (by rw [hnet])
    | @drive start d d' net' hp hdrive =>
        rw [hp] at hsends
        obtain rfl : k.sender = d := hsends
        obtain ⟨out', hdrive', hclock, hdgrams⟩ := hdrive.earlier houtClock hout
        refine ⟨_, .single (.drive hdrive'), hreach', hdgrams, hclock, hinn,
          hinnClock.trans hdrive.clock_le, harrivals, ?_, rfl, hreceives.congr rfl rfl⟩
        exact congrArg (d'.seq.getD ·) hstamped
    | @deliver i buf hi =>
        rw [← hout] at hi
        refine ⟨_, .single (.deliver hi), hreach', hout, houtClock, ?_, hinnClock, ?_, hstamped,
          hsends, hreceives.congr rfl rfl⟩
        · exact congrArg (· ++ [buf]) hinn
        · exact congrArg (· ++ [i]) harrivals

/-- Behind every state of a UDP test there is a link. -/
theorem RelayReachable.linked {su : Setup} {a : Relay} (hmode : su.neg.mode = .udp)
    (h : RelayReachable su a) : ∃ k, Udp.Linked su.neg k ∧ a.Along k := by
  obtain ⟨a₀, rfl, hrun⟩ := h
  have hinit : Relay.init.Along .init :=
    ⟨rfl, le_rfl, rfl, le_rfl, rfl, rfl, rfl,
      fun _ => rfl, fun n u hp => (by cases hp),
      fun r hr => (by rcases hr with hr | hr <;> cases hr)⟩
  rcases (relay_simulates hmode).run (fun _ _ _ _ => trivial) hrun trivial
    ⟨Reachable.start rfl, hinit⟩ with ⟨k, hk, -, halong⟩ | hoff
  · exact ⟨k, ⟨_, rfl, hk⟩, halong⟩
  · exact hoff.elim

end Along

/-! ## What the client reads -/

/-- A Result that is true of `n` datagrams of `p` bytes sent, the ones below `W` for
    warm-up, when those numbered `heard` came in, in this order. -/
structure TestResult.TrueOf (W n p : ℕ) (heard : List ℕ) (r : TestResult) : Prop where
  bytes : r.bytes = BitVec.ofNat 64 ((heard.filter fun s => W ≤ s).length * p)
  received : r.packetsReceived = some (BitVec.ofNat 64 (heard.filter fun s => W ≤ s).length)
  expected : ∃ e, r.packetsExpected = some e ∧ e.toNat ≤ n - W
  lost : ∃ e, r.packetsLost = some e ∧ e.toNat ≤ ((Finset.Ico W n).filter fun s => s ∉ heard).card
  once : heard.Nodup → ∃ got lost, r.packetsReceived = some got ∧ r.packetsLost = some lost ∧
    r.packetsExpected = some (got + lost)

/-- The numbers of the datagrams heard: those delivered first, in their order. -/
structure Relay.Heard (a : Relay) (heard : List ℕ) : Prop where
  came : Arrived (a.sent.map Udp.seqOf) (a.arrivals.take heard.length) heard
  once : a.arrivals.Nodup → heard.Nodup

/-- The sequence number in a header. -/
def headerSeq (header : Option (U64 × U64)) : ℕ := (header.map fun h => h.1.toNat).getD 0

theorem headerSeq_comp_unstamp : headerSeq ∘ Udp.unstamp = Udp.seqOf := by
  funext buf
  rw [Function.comp_apply, Udp.seqOf, headerSeq]
  cases Udp.unstamp buf <;> rfl

theorem Udp.Faithful.trueOf {W n p : ℕ} {heard : List ℕ} {l : Udp.Loop}
    (h : Udp.Faithful W n p heard l.acc) (now : ℕ) : (l.result now).TrueOf W n p heard where
  bytes := by
    show BitVec.ofNat 64 l.acc.bytes = _
    rw [h.bytes, h.received]
  received := by
    show some (BitVec.ofNat 64 l.acc.received) = _
    rw [h.received]
  expected := ⟨_, rfl, h.expected⟩
  lost := by
    refine ⟨_, rfl, ?_⟩
    rw [BitVec.toNat_ofNat, Nat.mod_eq_of_lt (Udp.LossJitter.lost_lt _)]
    exact h.lost
  once honce := by
    refine ⟨_, _, rfl, rfl, ?_⟩
    show some l.acc.expected = _
    rw [← BitVec.ofNat_add, h.once honce, BitVec.ofNat_toNat, BitVec.setWidth_eq]

/-- A UDP test at both ends, in any interleaving, over a network that may lose, delay,
    reorder and repeat datagrams but makes none up: while it runs the session's totals,
    and in the end the Result the client reads, are true of the datagrams the client
    has stamped and the session has heard. -/
theorem udp_flow {su : Setup} (hmode : su.neg.mode = .udp) {a : Relay} (h : RelayReachable su a)
    (hfit : a.stamped < 2 ^ 64) :
    let W := (Udp.warmupPackets su.neg).toNat
    let p := (Udp.packetBytes su.neg).toNat
    (∀ n l, a.joint.world.session.phase = .running n (.udp (.selecting l)) →
      ∃ heard, a.Heard heard ∧ Udp.Faithful W a.stamped p heard l.acc) ∧
    ∀ r, a.joint.client = .done r → ∃ heard, a.Heard heard ∧ r.TrueOf W a.stamped p heard := by
  intro W p
  obtain ⟨k, hlinked, halong⟩ := h.linked hmode
  have hreceives := halong.receives
  -- at the link, with its datagrams by number
  have hholds : k.receiver.Holds fun l =>
      ∃ heard, a.Heard heard ∧ Udp.Faithful W a.stamped p heard l.acc := by
    refine hlinked.loop (halong.stamped ▸ hfit)
      fun t0 tick0 ts latest l hturned hlatest hbufs honce hobserved => ?_
    obtain ⟨honce', hfaithful⟩ := hobserved.faithful (halong.stamped ▸ hfit) hbufs honce
    rw [halong.stamped] at hfaithful
    rw [halong.arrivals] at honce'
    refine ⟨_, ⟨?_, honce'⟩, hfaithful⟩
    have hcame := hobserved.came.map headerSeq
    rw [halong.out, halong.arrivals, List.map_map, List.map_map] at hcame
    rw [List.length_map, ← headerSeq_comp_unstamp]
    exact hcame
  refine ⟨fun n l hp => ?_, fun r hr => ?_⟩
  · rw [hreceives.running n _ hp] at hholds
    exact hholds
  · have hhas : a.joint.world.Has r := .inr (List.mem_of_getElem? (h.joint.agree.done r hr))
    rw [hreceives.has r hhas] at hholds
    obtain ⟨l, now, ⟨heard, hheard, hfaithful⟩, rfl⟩ := hholds
    exact ⟨heard, hheard, hfaithful.trueOf now⟩

/-- The handshake of a UDP test, over a network that has taken nothing. -/
theorem RelayReachable.entered (su : Setup) (hmode : su.neg.mode = .udp) (port : U16) :
    RelayReachable su ⟨⟨.driving ⟨port, SERVER_SEED⟩ (.udp .starting), 2,
      World.entered clientHello su.neg port⟩, [], [], 0⟩ := by
  have hinit : RelayReachable su Relay.init := Reachable.start rfl
  have hello := (hinit.next (.client (.write rfl) False.elim)).next (.server (.read rfl rfl))
  have welcome := (hello.next (.server (.write rfl))).next (.client (.read rfl rfl) False.elim)
  have request := (welcome.next (.client (.write rfl) False.elim)).next (.server (.read rfl rfl))
  have bound := request.next (.server (.bind rfl port))
  obtain ⟨⟨mode, _⟩, _⟩ := su
  cases hmode
  exact (((bound.next (.server (.write rfl))).next (.client (.read rfl rfl) False.elim)).next
    (.client (.write rfl) False.elim)).next (.server (.read rfl rfl))

/-- One bare header, delivered twice and heard twice, and the Result of it read. -/
theorem headerRequest_reported :
    ∃ a r, RelayReachable ⟨Udp.headerRequest, true, 0⟩ a ∧ a.joint.client = .done r ∧
      a.arrivals = [0, 0] ∧ a.stamped = 1 := by
  have hmore : 0 < (Udp.SendLoop.init.tick (Udp.driveRate Udp.headerRequest)).toSend := by
    rw [Udp.toSend_headerRequest]
    exact Nat.one_pos
  have hnone : (Udp.SendLoop.init.tick (Udp.driveRate Udp.headerRequest)).send.toSend = 0 := by
    rw [Udp.SendLoop.send, Udp.toSend_headerRequest]
  have h := RelayReachable.entered ⟨Udp.headerRequest, true, 0⟩ rfl 5202
  -- the client sends its datagram, and its second is over
  have h := h.next (.drive rfl (.start (Nat.le_refl 0) (Nat.le_refl 0)))
  have h := h.next (.drive rfl (.go (Nat.le_refl 0) (by decide)))
  have h := h.next (.drive rfl (.tick (Nat.le_refl 0) (Nat.le_refl 0)))
  have h := h.next (.drive rfl (.send hmore (Nat.le_refl 0)
    (List.length_replicate (n := (Udp.packetBytes Udp.headerRequest).toNat) (a := 0))))
  have h := h.next (.drive rfl (.sent hnone))
  have h := h.next (.drive rfl (.finish (Nat.zero_le SECOND) (by decide)))
  have h := h.next (.client (.driven rfl trivial) fun _ => not_false)
  -- the session hears it twice, and reads Stop
  have h := h.next (.server (.data rfl (.udp (.start (Nat.le_refl SECOND) le_rfl))))
  have h := h.next (.deliver (i := 0) rfl)
  have h := h.next (.deliver (i := 0) rfl)
  have h := h.next (.server (.data rfl (.udp (.recv rfl (Nat.le_refl SECOND) le_rfl))))
  have h := h.next (.server (.data rfl (.udp (.recv rfl (Nat.le_refl SECOND) le_rfl))))
  have h := h.next (.client (.write rfl) False.elim)
  have h := h.next (.server (.read rfl rfl))
  have h := h.next (.server (.data rfl (.udp (.finish (Nat.le_refl SECOND)))))
  have h := (h.next (.server (.finish rfl rfl))).next (.server (.write rfl))
  exact ⟨_, _, h.next (.client (.read rfl rfl) False.elim), rfl, rfl, rfl⟩

theorem udp_flow_headerRequest :
    ∃ a r heard, RelayReachable ⟨Udp.headerRequest, true, 0⟩ a ∧ a.joint.client = .done r ∧
      a.arrivals = [0, 0] ∧ a.Heard heard ∧ r.TrueOf 0 1 16 heard := by
  obtain ⟨a, r, h, hr, harrivals, hone⟩ := headerRequest_reported
  obtain ⟨-, hresult⟩ := udp_flow (by rfl) h (by rw [hone]; decide)
  obtain ⟨heard, hheard, htrue⟩ := hresult r hr
  rw [hone] at htrue
  exact ⟨a, r, heard, h, hr, harrivals, hheard, htrue⟩

end Andri
