import Mathlib.Data.List.Nodup
import HakunaMatata.Base.Blocks
import HakunaMatata.Libevent.Reconnect

/-!
# The peers of an IO thread, `peer_io_thread.cpp`

An IO thread of `BaseServer` keeps the set of its peers. A peer is inserted when it is created, and
erased by the close callback `onClosePeer` when it is freed, which can happen at the end of a read,
write or event callback, or in the sweep for idle peers. Peers and bufferevents are blocks of a
heap in which every access to a freed block is a fault. The callbacks of the user may mark peers for
closing. The main theorem, `peers_exact`, says that the set is at every point the set of the peers
that exist, and that no step faults.
-/

namespace HakunaMatata.Libevent.PeerSet

open Base
open Reconnect (Events)

/-- The fields of `struct Peer` that the IO thread uses. -/
structure Peer where
  bev : Nat
  autoReconnect : Bool
  waitClose : Bool
  lastRead : Int
  lastWrite : Int
  inTimeout : UInt16
  outTimeout : UInt16
  deriving DecidableEq, Repr

/-- The bufferevents, each with the peer that its callbacks get, the peers, and the fields of
`PeerIOThread`. -/
structure State where
  bevs : Blocks Nat
  heap : Blocks Peer
  peers : List Nat
  inTimeoutSec : UInt16
  outTimeoutSec : UInt16

/-- A thread without peers. -/
def State.init : State := ⟨Blocks.empty, Blocks.empty, [], 0, 0⟩

/-- `tunnelcb_addsocktask`, with `peerConnectIn`. -/
def addSocket (s : State) (now : Int) : State :=
  { s with
    bevs := s.bevs.alloc s.heap.size
    heap := s.heap.alloc
      { bev := s.bevs.size
        autoReconnect := false
        waitClose := false
        lastRead := now
        lastWrite := now
        inTimeout := s.inTimeoutSec
        outTimeout := s.outTimeoutSec }
    peers := s.peers.insert s.heap.size }

/-- Write to a peer. -/
def setPeer (s : State) (p : Nat) (f : Peer → Peer) : Except Fault State := do
  let peer ← s.heap.get p
  let heap ← s.heap.put p (f peer)
  pure { s with heap := heap }

/-- `peerClose`. -/
def peerClose (s : State) (p : Nat) : Except Fault State :=
  setPeer s p fun peer => { peer with waitClose := true }

/-- `onClosePeer`, which takes the thread from the peer. -/
def onClosePeer (s : State) (p : Nat) : Except Fault State := do
  let _peer ← s.heap.get p
  pure { s with peers := s.peers.erase p }

/-- `peerFree`. The peers of an IO thread have no heartbeat, and no timer to reconnect. -/
def peerFree (s : State) (p : Nat) : Except Fault State := do
  let s ← onClosePeer s p
  let s ← setPeer s p fun peer =>
    { peer with inTimeout := 0, outTimeout := 0, autoReconnect := false }
  let peer ← s.heap.get p
  let bevs ← s.bevs.free peer.bev
  let heap ← s.heap.free p
  pure { s with bevs := bevs, heap := heap }

/-- The beginning of a callback: `assert(bev == peer->bev)`. -/
def contextOf (s : State) (bev : Nat) : Except Fault Nat := do
  let p ← s.bevs.get bev
  let peer ← s.heap.get p
  if peer.bev = bev then pure p else .error .assertion

/-- `readcb` and `writecb`: the user's callback closes some peers, the time is stored, and a peer
that is marked is freed. -/
def iocb (s : State) (bev : Nat) (closes : List Nat) (touch : Peer → Peer) :
    Except Fault State := do
  let p ← contextOf s bev
  let s ← closes.foldlM peerClose s
  let _ctx ← s.bevs.get bev
  let s ← setPeer s p touch
  let peer ← s.heap.get p
  if peer.waitClose then peerFree s p else pure s

/-- `readcb`. -/
def readcb (s : State) (bev : Nat) (now : Int) (closes : List Nat) : Except Fault State :=
  iocb s bev closes fun peer => { peer with lastRead := now }

/-- `writecb`. -/
def writecb (s : State) (bev : Nat) (now : Int) (closes : List Nat) : Except Fault State :=
  iocb s bev closes fun peer => { peer with lastWrite := now }

/-- `peerStartReconn`, as far as it uses the bufferevent; see `Libevent/Reconnect.lean` for the
timer. -/
def peerStartReconn (s : State) (peer : Peer) : Except Fault State := do
  let _ctx ← s.bevs.get peer.bev
  pure s

/-- `eventcb`, with `BaseServer::onEvent`. -/
def eventcb (s : State) (bev : Nat) (events : Events) (closes : List Nat) :
    Except Fault State := do
  let p ← contextOf s bev
  let s ← closes.foldlM peerClose s
  let s ← peerClose s p
  if events.error || events.eof then do
    let peer ← s.heap.get p
    if peer.autoReconnect then peerStartReconn s peer else peerFree s p
  else pure s

/-- The condition of `check_timeout`. -/
def Peer.expired (peer : Peer) (now : Int) : Bool :=
  (peer.inTimeout ≠ 0 && now - peer.lastRead > peer.inTimeout.toNat) ||
    (peer.outTimeout ≠ 0 && now - peer.lastWrite > peer.outTimeout.toNat)

/-- The first loop of `check_timeout`, which collects `del_peers`. -/
def delPeers (s : State) (now : Int) : List Nat → Except Fault (List Nat)
  | [] => pure []
  | p :: rest => do
    let peer ← s.heap.get p
    let more ← delPeers s now rest
    pure (if peer.expired now then p :: more else more)

/-- `check_timeout`. -/
def checkTimeout (s : State) (now : Int) : Except Fault State := do
  let expired ← delPeers s now s.peers
  expired.foldlM peerFree s

/-- What happens in the thread. -/
inductive Op where
  | addSocket (now : Int)
  | read (bev : Nat) (now : Int) (closes : List Nat)
  | write (bev : Nat) (now : Int) (closes : List Nat)
  | event (bev : Nat) (events : Events) (closes : List Nat)
  | checkTimeout (now : Int)
  | setTimeout (inTimeoutSec outTimeoutSec : UInt16)
  deriving DecidableEq, Repr

/-- The peer exists. -/
def State.live (s : State) (p : Nat) : Bool :=
  (s.heap.lookup p).isSome

/-- Callbacks are for bufferevents that were not freed, and the user closes peers that exist. -/
def Allowed (s : State) : Op → Prop
  | .addSocket _ => True
  | .read bev _ closes => (s.bevs.lookup bev).isSome = true ∧ closes.all s.live = true
  | .write bev _ closes => (s.bevs.lookup bev).isSome = true ∧ closes.all s.live = true
  | .event bev _ closes => (s.bevs.lookup bev).isSome = true ∧ closes.all s.live = true
  | .checkTimeout _ => True
  | .setTimeout _ _ => True

instance (s : State) : (op : Op) → Decidable (Allowed s op)
  | .addSocket _ => inferInstanceAs (Decidable True)
  | .read _ _ _ => inferInstanceAs (Decidable (_ ∧ _))
  | .write _ _ _ => inferInstanceAs (Decidable (_ ∧ _))
  | .event _ _ _ => inferInstanceAs (Decidable (_ ∧ _))
  | .checkTimeout _ => inferInstanceAs (Decidable True)
  | .setTimeout _ _ => inferInstanceAs (Decidable True)

/-- The operations. -/
def exec (s : State) : Op → Except Fault State
  | .addSocket now => pure (addSocket s now)
  | .read bev now closes => readcb s bev now closes
  | .write bev now closes => writecb s bev now closes
  | .event bev events closes => eventcb s bev events closes
  | .checkTimeout now => checkTimeout s now
  | .setTimeout inTimeoutSec outTimeoutSec =>
    pure { s with inTimeoutSec := inTimeoutSec, outTimeoutSec := outTimeoutSec }

/-- An IO thread. -/
def machine : Machine State Op Unit where
  Allowed := Allowed
  exec s op := do
    let s' ← exec s op
    pure ((), s')

instance (s : State) (op : Op) : Decidable (machine.Allowed s op) :=
  inferInstanceAs (Decidable (Allowed s op))

/-! ## The invariant -/

/-- The set has the peers that exist, and every peer has its own bufferevent. -/
structure Exact (s : State) : Prop where
  nodup : s.peers.Nodup
  mem_peers : ∀ p, p ∈ s.peers ↔ s.live p = true
  bev_alive : ∀ p peer, s.heap.lookup p = some peer → s.bevs.lookup peer.bev = some p
  ctx_alive : ∀ bev p, s.bevs.lookup bev = some p →
    ∃ peer, s.heap.lookup p = some peer ∧ peer.bev = bev

/-- The same peers and bufferevents exist. -/
structure SameLive (s s' : State) : Prop where
  bevs : s'.bevs = s.bevs
  live : ∀ p, s'.live p = s.live p

section Steps

variable {s s' : State} {p bev : Nat} {peer : Peer}

theorem SameLive.refl (s : State) : SameLive s s :=
  ⟨rfl, fun _ => rfl⟩

theorem SameLive.trans {s'' : State} (h : SameLive s s') (h' : SameLive s' s'') : SameLive s s'' :=
  ⟨h'.bevs.trans h.bevs, fun p => (h'.live p).trans (h.live p)⟩

theorem exists_of_live (h : s.live p = true) : ∃ peer, s.heap.lookup p = some peer :=
  Option.isSome_iff_exists.mp h

theorem live_of_lookup (h : s.heap.lookup p = some peer) : s.live p = true :=
  Option.isSome_iff_exists.mpr ⟨peer, h⟩

theorem setPeer_eq (hp : s.heap.lookup p = some peer) (f : Peer → Peer) :
    ∃ heap, setPeer s p f = .ok { s with heap := heap } ∧
      ∀ q, heap.lookup q = if q = p then some (f peer) else s.heap.lookup q := by
  obtain ⟨heap, hput, _, hlookup⟩ := Blocks.put_eq_ok hp (f peer)
  refine ⟨heap, ?_, hlookup⟩
  rw [setPeer, Blocks.get_eq_ok hp, ok_bind, hput]
  rfl

theorem Exact.setPeer (h : Exact s) (hp : s.heap.lookup p = some peer) (f : Peer → Peer)
    (hf : (f peer).bev = peer.bev) :
    ∃ s', setPeer s p f = .ok s' ∧ Exact s' ∧ SameLive s s' ∧
      s'.heap.lookup p = some (f peer) := by
  obtain ⟨heap, hset, hlookup⟩ := setPeer_eq hp f
  have hself : heap.lookup p = some (f peer) := (hlookup p).trans (if_pos rfl)
  have hlive : ∀ q, (heap.lookup q).isSome = s.live q := fun q => by
    rcases eq_or_ne q p with rfl | hne
    · rw [hself, live_of_lookup hp]
      rfl
    · rw [hlookup, if_neg hne]
      rfl
  refine ⟨_, hset, ⟨h.nodup, fun q => ?_, fun q other hq => ?_, fun b q hb => ?_⟩,
    ⟨rfl, hlive⟩, hself⟩
  · rw [h.mem_peers q]
    exact Iff.of_eq (congrArg (· = true) (hlive q).symm)
  · rcases eq_or_ne q p with rfl | hne
    · cases hself.symm.trans hq
      rw [hf]
      exact h.bev_alive q peer hp
    · exact h.bev_alive q other (((hlookup q).trans (if_neg hne)).symm.trans hq)
  · obtain ⟨other, hother, hbev⟩ := h.ctx_alive b q hb
    rcases eq_or_ne q p with rfl | hne
    · cases hp.symm.trans hother
      exact ⟨f peer, hself, hf.trans hbev⟩
    · exact ⟨other, (hlookup q).trans ((if_neg hne).trans hother), hbev⟩

theorem Exact.peerClose (h : Exact s) (hp : s.live p = true) :
    ∃ s', peerClose s p = .ok s' ∧ Exact s' ∧ SameLive s s' := by
  obtain ⟨peer, hpeer⟩ := exists_of_live hp
  obtain ⟨s', hs', hexact, hsame, _⟩ :=
    h.setPeer hpeer (fun peer => { peer with waitClose := true }) rfl
  exact ⟨s', hs', hexact, hsame⟩

theorem Exact.closes (h : Exact s) {closes : List Nat} (hcloses : closes.all s.live = true) :
    ∃ s', closes.foldlM PeerSet.peerClose s = .ok s' ∧ Exact s' ∧ SameLive s s' := by
  induction closes generalizing s with
  | nil => exact ⟨s, rfl, h, SameLive.refl s⟩
  | cons p closes ih =>
    rw [List.all_cons, Bool.and_eq_true] at hcloses
    obtain ⟨s₁, hs₁, hexact₁, hsame₁⟩ := h.peerClose hcloses.1
    have hrest : closes.all s₁.live = true := by
      rw [funext hsame₁.live]
      exact hcloses.2
    obtain ⟨s₂, hs₂, hexact₂, hsame₂⟩ := ih hexact₁ hrest
    refine ⟨s₂, ?_, hexact₂, hsame₁.trans hsame₂⟩
    rw [List.foldlM_cons, hs₁, ok_bind]
    exact hs₂

theorem peerFree_eq (h : Exact s) (hp : s.heap.lookup p = some peer) :
    ∃ bevs heap,
      peerFree s p = .ok { s with bevs := bevs, heap := heap, peers := s.peers.erase p } ∧
      (∀ b, bevs.lookup b = if b = peer.bev then none else s.bevs.lookup b) ∧
      ∀ q, heap.lookup q = if q = p then none else s.heap.lookup q := by
  let cleared : Peer := { peer with inTimeout := 0, outTimeout := 0, autoReconnect := false }
  have hclose : onClosePeer s p = .ok { s with peers := s.peers.erase p } := by
    rw [onClosePeer, Blocks.get_eq_ok hp]
    rfl
  obtain ⟨heap₁, hset, hlookup₁⟩ :=
    setPeer_eq (s := { s with peers := s.peers.erase p }) hp
      (fun peer => { peer with inTimeout := 0, outTimeout := 0, autoReconnect := false })
  have hself : heap₁.lookup p = some cleared := (hlookup₁ p).trans (if_pos rfl)
  obtain ⟨bevs, hbevs, _, hbevsLookup⟩ := Blocks.free_eq_ok (h.bev_alive p peer hp)
  obtain ⟨heap, hheap, _, hheapLookup⟩ := Blocks.free_eq_ok hself
  refine ⟨bevs, heap, ?_, hbevsLookup, fun q => ?_⟩
  · rw [peerFree, hclose, ok_bind, hset, ok_bind, Blocks.get_eq_ok hself, ok_bind, hbevs, ok_bind,
      hheap, ok_bind]
    rfl
  · rw [hheapLookup, hlookup₁]
    split <;> rfl

theorem Exact.peerFree (h : Exact s) (hp : s.live p = true) :
    ∃ s', peerFree s p = .ok s' ∧ Exact s' ∧ ∀ q, q ≠ p → s'.live q = s.live q := by
  obtain ⟨peer, hpeer⟩ := exists_of_live hp
  obtain ⟨bevs, heap, hfree, hbevs, hheap⟩ := peerFree_eq h hpeer
  have hother : ∀ {q}, q ≠ p → heap.lookup q = s.heap.lookup q := fun hne =>
    (hheap _).trans (if_neg hne)
  have hgone : heap.lookup p = none := (hheap p).trans (if_pos rfl)
  refine ⟨_, hfree, ⟨h.nodup.erase p, fun q => ?_, fun q other hq => ?_, fun b q hb => ?_⟩,
    fun q hne => congrArg Option.isSome (hother hne)⟩
  · show q ∈ s.peers.erase p ↔ (heap.lookup q).isSome = true
    rw [h.nodup.mem_erase_iff, h.mem_peers q]
    rcases eq_or_ne q p with rfl | hne
    · rw [hgone]
      simp
    · rw [hother hne]
      exact and_iff_right hne
  · have hne : q ≠ p := by
      rintro rfl
      cases hgone.symm.trans hq
    have hq' := h.bev_alive q other ((hother hne).symm.trans hq)
    -- two peers do not have one bufferevent, since it has one context
    have hbev : other.bev ≠ peer.bev := fun heq => by
      rw [heq, h.bev_alive p peer hpeer] at hq'
      exact hne (Option.some.inj hq').symm
    exact (hbevs other.bev).trans ((if_neg hbev).trans hq')
  · have hb' : b ≠ peer.bev := by
      rintro rfl
      cases ((hbevs peer.bev).trans (if_pos rfl)).symm.trans hb
    obtain ⟨other, hlookup, hbev⟩ :=
      h.ctx_alive b q (((hbevs b).trans (if_neg hb')).symm.trans hb)
    have hne : q ≠ p := by
      rintro rfl
      cases hpeer.symm.trans hlookup
      exact hb' hbev.symm
    exact ⟨other, (hother hne).trans hlookup, hbev⟩

theorem Exact.sweep (h : Exact s) {expired : List Nat} (hnodup : expired.Nodup)
    (hlive : ∀ p ∈ expired, s.live p = true) :
    ∃ s', expired.foldlM PeerSet.peerFree s = .ok s' ∧ Exact s' := by
  induction expired generalizing s with
  | nil => exact ⟨s, rfl, h⟩
  | cons p expired ih =>
    obtain ⟨hfresh, hnodup⟩ := List.nodup_cons.mp hnodup
    obtain ⟨s₁, hs₁, hexact₁, hother⟩ := h.peerFree (hlive p List.mem_cons_self)
    have hrest : ∀ q ∈ expired, s₁.live q = true := fun q hq => by
      rw [hother q (ne_of_mem_of_not_mem hq hfresh)]
      exact hlive q (List.mem_cons_of_mem p hq)
    obtain ⟨s₂, hs₂, hexact₂⟩ := ih hexact₁ hnodup hrest
    refine ⟨s₂, ?_, hexact₂⟩
    rw [List.foldlM_cons, hs₁, ok_bind]
    exact hs₂

theorem delPeers_sublist (now : Int) {peers : List Nat} (hlive : ∀ p ∈ peers, s.live p = true) :
    ∃ expired, delPeers s now peers = .ok expired ∧ expired.Sublist peers := by
  induction peers with
  | nil => exact ⟨[], rfl, List.Sublist.refl []⟩
  | cons p peers ih =>
    obtain ⟨peer, hpeer⟩ := exists_of_live (hlive p List.mem_cons_self)
    obtain ⟨more, hmore, hsub⟩ := ih fun q hq => hlive q (List.mem_cons_of_mem p hq)
    refine ⟨if peer.expired now then p :: more else more, ?_, ?_⟩
    · rw [delPeers, Blocks.get_eq_ok hpeer, ok_bind, hmore]
      rfl
    · split
      · exact hsub.cons_cons p
      · exact hsub.cons p

theorem Exact.sweep_take (h : Exact s) (now : Int) :
    ∃ expired, delPeers s now s.peers = .ok expired ∧
      ∀ n, ∃ s', (expired.take n).foldlM PeerSet.peerFree s = .ok s' ∧ Exact s' := by
  have hlive : ∀ p ∈ s.peers, s.live p = true := fun p hp => (h.mem_peers p).mp hp
  obtain ⟨expired, hexpired, hsub⟩ := delPeers_sublist now hlive
  refine ⟨expired, hexpired, fun n => ?_⟩
  have htake := (List.take_sublist n expired).trans hsub
  exact h.sweep (htake.nodup h.nodup) fun p hp => hlive p (htake.mem hp)

theorem Exact.checkTimeout (h : Exact s) (now : Int) :
    ∃ s', checkTimeout s now = .ok s' ∧ Exact s' := by
  obtain ⟨expired, hexpired, htake⟩ := h.sweep_take now
  obtain ⟨s', hs', hexact⟩ := htake expired.length
  rw [List.take_length] at hs'
  refine ⟨s', ?_, hexact⟩
  rw [PeerSet.checkTimeout, hexpired, ok_bind]
  exact hs'

theorem Exact.contextOf (h : Exact s) (hbev : (s.bevs.lookup bev).isSome = true) :
    ∃ p, contextOf s bev = .ok p ∧ s.bevs.lookup bev = some p ∧ s.live p = true := by
  obtain ⟨p, hp⟩ := Option.isSome_iff_exists.mp hbev
  obtain ⟨peer, hpeer, heq⟩ := h.ctx_alive bev p hp
  refine ⟨p, ?_, hp, live_of_lookup hpeer⟩
  rw [PeerSet.contextOf, Blocks.get_eq_ok hp, ok_bind, Blocks.get_eq_ok hpeer, ok_bind, if_pos heq]
  rfl

theorem Exact.iocb (h : Exact s) {closes : List Nat} {touch : Peer → Peer}
    (htouch : ∀ peer, (touch peer).bev = peer.bev) (hbev : (s.bevs.lookup bev).isSome = true)
    (hcloses : closes.all s.live = true) : ∃ s', iocb s bev closes touch = .ok s' ∧ Exact s' := by
  obtain ⟨p, hctx, hp, hlive⟩ := h.contextOf hbev
  obtain ⟨s₁, hs₁, hexact₁, hsame₁⟩ := h.closes hcloses
  obtain ⟨peer, hpeer⟩ := exists_of_live ((hsame₁.live p).trans hlive)
  obtain ⟨s₂, hs₂, hexact₂, _, hpeer₂⟩ := hexact₁.setPeer hpeer touch (htouch peer)
  have hget : s₁.bevs.get bev = .ok p := Blocks.get_eq_ok (hsame₁.bevs ▸ hp)
  rw [PeerSet.iocb, hctx, ok_bind, hs₁, ok_bind, hget, ok_bind, hs₂, ok_bind,
    Blocks.get_eq_ok hpeer₂, ok_bind]
  split
  · obtain ⟨s₃, hs₃, hexact₃, _⟩ := hexact₂.peerFree (live_of_lookup hpeer₂)
    exact ⟨s₃, hs₃, hexact₃⟩
  · exact ⟨s₂, rfl, hexact₂⟩

theorem Exact.eventcb (h : Exact s) {events : Events} {closes : List Nat}
    (hbev : (s.bevs.lookup bev).isSome = true) (hcloses : closes.all s.live = true) :
    ∃ s', eventcb s bev events closes = .ok s' ∧ Exact s' := by
  obtain ⟨p, hctx, _, hlive⟩ := h.contextOf hbev
  obtain ⟨s₁, hs₁, hexact₁, hsame₁⟩ := h.closes hcloses
  obtain ⟨s₂, hs₂, hexact₂, hsame₂⟩ := hexact₁.peerClose ((hsame₁.live p).trans hlive)
  rw [PeerSet.eventcb, hctx, ok_bind, hs₁, ok_bind, hs₂, ok_bind]
  split
  · have hlive₂ := ((hsame₁.trans hsame₂).live p).trans hlive
    obtain ⟨peer, hpeer⟩ := exists_of_live hlive₂
    rw [Blocks.get_eq_ok hpeer, ok_bind]
    split
    · refine ⟨s₂, ?_, hexact₂⟩
      rw [peerStartReconn, Blocks.get_eq_ok (hexact₂.bev_alive p peer hpeer)]
      rfl
    · obtain ⟨s₃, hs₃, hexact₃, _⟩ := hexact₂.peerFree hlive₂
      exact ⟨s₃, hs₃, hexact₃⟩
  · exact ⟨s₂, rfl, hexact₂⟩

theorem Exact.addSocket (h : Exact s) (now : Int) : Exact (addSocket s now) := by
  have hfresh : s.heap.lookup s.heap.size = none :=
    Blocks.lookup_of_size_le (Nat.le_refl _)
  have hfreshBev : s.bevs.lookup s.bevs.size = none :=
    Blocks.lookup_of_size_le (Nat.le_refl _)
  refine ⟨h.nodup.insert, fun q => ?_, fun q other hq => ?_, fun b q hb => ?_⟩
  · show q ∈ s.peers.insert s.heap.size ↔ ((s.heap.alloc _).lookup q).isSome = true
    rw [List.mem_insert_iff, h.mem_peers q, Blocks.lookup_alloc]
    split
    · rename_i heq
      simp [heq]
    · rename_i hne
      exact or_iff_right hne
  · change (s.heap.alloc _).lookup q = some other at hq
    show (s.bevs.alloc s.heap.size).lookup other.bev = some q
    rw [Blocks.lookup_alloc] at hq ⊢
    split at hq
    · rename_i heq
      cases hq
      rw [if_pos rfl, heq]
    · have hold := h.bev_alive q other hq
      rw [if_neg, hold]
      intro heq
      rw [heq, hfreshBev] at hold
      cases hold
  · change (s.bevs.alloc s.heap.size).lookup b = some q at hb
    show ∃ peer, (s.heap.alloc _).lookup q = some peer ∧ peer.bev = b
    rw [Blocks.lookup_alloc] at hb
    split at hb
    · rename_i heq
      cases hb
      exact ⟨_, Blocks.lookup_alloc.trans (if_pos rfl), heq.symm⟩
    · obtain ⟨peer, hpeer, hbev⟩ := h.ctx_alive b q hb
      have hne : q ≠ s.heap.size := by
        rintro rfl
        cases hfresh.symm.trans hpeer
      exact ⟨peer, Blocks.lookup_alloc.trans ((if_neg hne).trans hpeer), hbev⟩

end Steps

/-! ## Runs of a thread -/

section Runs

variable {s : State}

theorem Exact.exec (h : Exact s) {op : Op} (hop : Allowed s op) :
    ∃ s', exec s op = .ok s' ∧ Exact s' := by
  cases op with
  | addSocket now => exact ⟨_, rfl, h.addSocket now⟩
  | read bev now closes => exact h.iocb (fun _ => rfl) hop.1 hop.2
  | write bev now closes => exact h.iocb (fun _ => rfl) hop.1 hop.2
  | event bev events closes => exact h.eventcb hop.1 hop.2
  | checkTimeout now => exact h.checkTimeout now
  | setTimeout inTimeoutSec outTimeoutSec =>
    exact ⟨_, rfl, h.nodup, h.mem_peers, h.bev_alive, h.ctx_alive⟩

theorem exact_init : Exact State.init :=
  ⟨List.nodup_nil, fun _ => ⟨fun h => absurd h List.not_mem_nil, nofun⟩, nofun, nofun⟩

theorem Exact.machine_exec (h : Exact s) {op : Op} (hop : machine.Allowed s op) :
    ∃ s', machine.exec s op = .ok ((), s') ∧ Exact s' := by
  obtain ⟨s', hs', hexact⟩ := h.exec hop
  refine ⟨s', ?_, hexact⟩
  show (do let s' ← PeerSet.exec s op; pure ((), s')) = Except.ok ((), s')
  rw [hs', ok_bind]
  rfl

theorem exact_of_steps (hrun : machine.Steps State.init s) : Exact s := by
  refine Machine.invariant Exact (fun s op hs hop => ?_) exact_init hrun
  obtain ⟨s', hs', hexact⟩ := hs.machine_exec hop
  exact ⟨(), s', hs', hexact⟩

/-- The set `peers` has, once each, the peers that were created and not freed. -/
structure Tracks (s : State) : Prop where
  nodup : s.peers.Nodup
  mem_iff : ∀ p, p ∈ s.peers ↔ p < s.heap.size ∧ p ∉ s.heap.freed

theorem Exact.tracks (h : Exact s) : Tracks s := by
  refine ⟨h.nodup, fun p => ?_⟩
  rw [h.mem_peers p, Blocks.mem_freed_iff]
  constructor
  · intro hlive
    obtain ⟨peer, hpeer⟩ := exists_of_live hlive
    refine ⟨Blocks.lt_size hpeer, fun hfreed => ?_⟩
    cases hpeer.symm.trans hfreed.2
  · rintro ⟨hlt, hnot⟩
    exact Option.isSome_iff_ne_none.mpr fun hnone => hnot ⟨hlt, hnone⟩

/-- At every point of every run, also between the peers that a sweep frees, the set is exact. No
peer is freed twice, and every step succeeds: it does not touch what was freed. -/
theorem peers_exact (hrun : machine.Steps State.init s) :
    Tracks s ∧ s.heap.freed.Nodup ∧
    (∀ op, machine.Allowed s op → ∃ s', machine.exec s op = .ok ((), s') ∧ Tracks s') ∧
    ∀ now, ∃ expired, delPeers s now s.peers = .ok expired ∧
      ∀ n, ∃ s', (expired.take n).foldlM peerFree s = .ok s' ∧ Tracks s' := by
  have hs := exact_of_steps hrun
  refine ⟨hs.tracks, s.heap.nodup, fun op hop => ?_, fun now => ?_⟩
  · obtain ⟨s', hs', hexact⟩ := hs.machine_exec hop
    exact ⟨s', hs', hexact.tracks⟩
  · obtain ⟨expired, hexpired, htake⟩ := hs.sweep_take now
    refine ⟨expired, hexpired, fun n => ?_⟩
    obtain ⟨s', hs', hexact⟩ := htake n
    exact ⟨s', hs', hexact.tracks⟩

/-- The first client is closed by its own read callback. The second closes the third, which is
freed when it writes. The fourth is idle and swept together with the second, and the fifth ends its
connection. -/
def fiveClients : List Op :=
  [.setTimeout 10 0, .addSocket 100, .addSocket 100, .addSocket 100, .addSocket 101,
    .read 0 101 [0], .read 1 102 [2], .event 3 ⟨true, false, false⟩ [], .write 2 103 [],
    .checkTimeout 110, .addSocket 112, .checkTimeout 113, .event 4 ⟨false, false, true⟩ []]

theorem fiveClients_exact : ∃ s, machine.run State.init fiveClients = some s ∧
    (s.peers = [] ∧ s.heap.freed = [4, 1, 3, 2, 0]) ∧ Tracks s := by
  have hrun : (machine.run State.init fiveClients).map (fun s => (s.peers, s.heap.freed)) =
      some ([], [4, 1, 3, 2, 0]) := by decide +kernel
  obtain ⟨s, hs, hfreed⟩ := Option.map_eq_some_iff.mp hrun
  exact ⟨s, hs, Prod.mk.inj hfreed, (peers_exact (Machine.steps_of_run hs)).1⟩

end Runs

end HakunaMatata.Libevent.PeerSet
