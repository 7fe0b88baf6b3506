import HakunaMatata.Base.Machine
import HakunaMatata.Pfpa.Context

/-!
# The TCP session table of the packet analyser

A table is `Valid` if its addresses are live, no two of them have the same key, and no key has
padding. `view` is the map that it stands for, from keys to sessions. Each operation keeps the
table valid and is an update of the map, so that `tcpPacketHandle` can be read as a function on
maps (`tcpPacketHandle_spec`). A packet with an ACK disconnects if both directions have sent
their FIN. It then removes both sessions, and if it also has a FIN it writes to the session that
it has just freed.
-/

namespace HakunaMatata.Pfpa

open Base

/-! ## Keys -/

theorem Addr.eq_of_bytes {d1 d2 : Addr} (h : d1.bytes = d2.bytes) : d1 = d2 := by
  obtain ⟨haddr, hrest⟩ := List.append_inj h (by simp)
  obtain ⟨hport, hpad⟩ := List.append_inj hrest (by simp)
  have haddr := storeWord_inj d1.addr.toNat_lt d2.addr.toNat_lt haddr
  have hport := storeWord_inj d1.port.toNat_lt d2.port.toNat_lt hport
  have hpad := storeWord_inj d1.pad.toNat_lt d2.pad.toNat_lt hpad
  cases d1
  cases d2
  simp_all [UInt32.toNat_inj, UInt16.toNat_inj]

theorem filterCmp_iff {d1 d2 : Addr} : filterCmp d1 d2 = true ↔ d1 = d2 := by
  rw [filterCmp, beq_iff_eq]
  exact ⟨Addr.eq_of_bytes, congrArg Addr.bytes⟩

theorem tcpSessionCmp_iff {d1 d2 : ConnKey} : tcpSessionCmp d1 d2 = true ↔ d1 = d2 := by
  rw [tcpSessionCmp, beq_iff_eq]
  constructor
  · intro h
    obtain ⟨hsrc, hdst⟩ := List.append_inj h (by simp [Addr.bytes])
    have hsrc := Addr.eq_of_bytes hsrc
    have hdst := Addr.eq_of_bytes hdst
    cases d1
    cases d2
    simp_all
  · exact congrArg ConnKey.bytes

/-- Both padding fields of the key are zero. -/
def ConnKey.Padless (key : ConnKey) : Prop :=
  key.src.pad = 0 ∧ key.dst.pad = 0

/-! ## Valid tables -/

section Table

variable {β : Type} {table table' : SessionTable β} {address : Nat} {session : TcpSession β}
  {key : ConnKey}

/-- The table holds the session at the address. -/
def Entry (table : SessionTable β) (address : Nat) (session : TcpSession β) : Prop :=
  address ∈ table.dict ∧ table.heap address = some session

/-- The invariant of the session table. -/
structure Valid (table : SessionTable β) : Prop where
  nodup : table.dict.Nodup
  live : ∀ a ∈ table.dict, ∃ s, table.heap a = some s
  distinct : ∀ a b s t, Entry table a s → Entry table b t → s.key = t.key → a = b
  fresh : ∀ a, table.next ≤ a → table.heap a = none
  padless : ∀ a s, Entry table a s → s.key.Padless

theorem valid_empty : Valid (.empty : SessionTable β) where
  nodup := .nil
  live _ ha := by cases ha
  distinct _ _ _ _ ha := by cases ha.1
  fresh _ _ := rfl
  padless _ _ ha := by cases ha.1

theorem heap_any_iff : ((table.heap address).any fun s => tcpSessionCmp s.key key) = true ↔
    ∃ session, table.heap address = some session ∧ session.key = key := by
  cases table.heap address with
  | none => simp
  | some session => simp [tcpSessionCmp_iff]

theorem find_eq_some_iff (h : Valid table) : table.find key = some address ↔
    ∃ session, Entry table address session ∧ session.key = key := by
  have hsound : ∀ {a}, table.find key = some a → ∃ s, Entry table a s ∧ s.key = key := by
    intro a hfind
    have hmatch := List.find?_some hfind
    obtain ⟨s, hheap, hkey⟩ := heap_any_iff.1 hmatch
    exact ⟨s, ⟨List.mem_of_find?_eq_some hfind, hheap⟩, hkey⟩
  refine ⟨hsound, ?_⟩
  rintro ⟨session, hentry, hkey⟩
  have hsome : (table.find key).isSome :=
    List.find?_isSome.2 ⟨address, hentry.1, heap_any_iff.2 ⟨session, hentry.2, hkey⟩⟩
  obtain ⟨other, hfind⟩ := Option.isSome_iff_exists.1 hsome
  obtain ⟨found, hother, hfound⟩ := hsound hfind
  rw [hfind, h.distinct other address found session hother hentry (hfound.trans hkey.symm)]

theorem find_eq_none (h : Valid table) (hfind : table.find key = none) (hentry : Entry table address
    session) : session.key ≠ key := by
  intro hkey
  rw [(find_eq_some_iff h).2 ⟨session, hentry, hkey⟩] at hfind
  cases hfind

/-- The map that the table stands for. -/
def view (table : SessionTable β) (key : ConnKey) : Option (TcpSession β) :=
  (table.find key).bind table.heap

theorem view_eq_some_iff (h : Valid table) : view table key = some session ↔
    ∃ address, Entry table address session ∧ session.key = key := by
  unfold view
  rw [Option.bind_eq_some_iff]
  constructor
  · rintro ⟨address, hfind, hheap⟩
    obtain ⟨found, hentry, hkey⟩ := (find_eq_some_iff h).1 hfind
    rw [hentry.2] at hheap
    cases hheap
    exact ⟨address, hentry, hkey⟩
  · rintro ⟨address, hentry, hkey⟩
    exact ⟨address, (find_eq_some_iff h).2 ⟨session, hentry, hkey⟩, hentry.2⟩

theorem entry_of_find (h : Valid table) (hfind : table.find key = some address) :
    ∃ session, Entry table address session ∧ session.key = key ∧ view table key = some session := by
  obtain ⟨session, hentry, hkey⟩ := (find_eq_some_iff h).1 hfind
  exact ⟨session, hentry, hkey, (view_eq_some_iff h).2 ⟨address, hentry, hkey⟩⟩

theorem view_of_not_padless (h : Valid table) (hkey : ¬ key.Padless) : view table key = none := by
  cases hview : view table key with
  | none => rfl
  | some session =>
    obtain ⟨address, hentry, rfl⟩ := (view_eq_some_iff h).1 hview
    exact absurd (h.padless address session hentry) hkey

/-- A table that has one other session at an address is valid, and the map has the session at
its key. -/
theorem Valid.put (h : Valid table) (table' : SessionTable β) (address : Nat)
    (session : TcpSession β) (hnodup : table'.dict.Nodup)
    (hfresh : ∀ a, table'.next ≤ a → table'.heap a = none)
    (hlive : ∀ a ∈ table'.dict, ∃ s, table'.heap a = some s)
    (hentry : ∀ a s, Entry table' a s ↔
      (a = address ∧ s = session) ∨ (a ≠ address ∧ Entry table a s))
    (hkey : ∀ a s, Entry table a s → (s.key = session.key ↔ a = address))
    (hpad : session.key.Padless) :
    Valid table' ∧ view table' = Function.update (view table) session.key (some session) := by
  have hvalid : Valid table' := by
    refine ⟨hnodup, hlive, ?_, hfresh, ?_⟩
    · intro a b s t ha hb heq
      rcases (hentry a s).1 ha with ⟨rfl, rfl⟩ | ⟨hne, ha⟩
      · rcases (hentry b t).1 hb with ⟨rfl, rfl⟩ | ⟨hne, hb⟩
        · rfl
        · exact absurd ((hkey b t hb).1 heq.symm) hne
      · rcases (hentry b t).1 hb with ⟨rfl, rfl⟩ | ⟨hne', hb⟩
        · exact absurd ((hkey a s ha).1 heq) hne
        · exact h.distinct a b s t ha hb heq
    · intro a s ha
      rcases (hentry a s).1 ha with ⟨rfl, rfl⟩ | ⟨_, ha⟩
      · exact hpad
      · exact h.padless a s ha
  refine ⟨hvalid, funext fun k => Option.ext fun s => ?_⟩
  rw [view_eq_some_iff hvalid]
  by_cases hk : k = session.key
  · subst hk
    rw [Function.update_self, Option.some.injEq]
    constructor
    · rintro ⟨a, ha, heq⟩
      rcases (hentry a s).1 ha with ⟨_, rfl⟩ | ⟨hne, ha⟩
      · rfl
      · exact absurd ((hkey a s ha).1 heq) hne
    · rintro rfl
      exact ⟨address, (hentry _ _).2 (.inl ⟨rfl, rfl⟩), rfl⟩
  · rw [Function.update_of_ne hk, view_eq_some_iff h]
    refine exists_congr fun a => and_congr_left fun heq => ?_
    rw [hentry]
    constructor
    · rintro (⟨_, rfl⟩ | ⟨_, ha⟩)
      · exact absurd heq.symm hk
      · exact ha
    · intro ha
      refine .inr ⟨fun haddress => ?_, ha⟩
      exact hk (heq.symm.trans ((hkey a s ha).2 haddress))

theorem valid_add (h : Valid table) (session : TcpSession β)
    (hfind : table.find session.key = none) (hpad : session.key.Padless) :
    Valid (table.add session) ∧
      view (table.add session) = Function.update (view table) session.key (some session) := by
  have hnew : table.next ∉ table.dict := by
    intro hmem
    obtain ⟨s, hs⟩ := h.live _ hmem
    rw [h.fresh _ le_rfl] at hs
    cases hs
  have hne : ∀ {a}, a ∈ table.dict → a ≠ table.next := fun ha heq => hnew (heq ▸ ha)
  refine h.put _ table.next session (List.nodup_cons.2 ⟨hnew, h.nodup⟩) ?_ ?_ ?_ ?_ hpad
  · intro a ha
    have ha : table.next + 1 ≤ a := ha
    exact (Function.update_of_ne (by omega) ..).trans (h.fresh a (by omega))
  · intro a ha
    rcases List.mem_cons.1 ha with rfl | ha
    · exact ⟨session, Function.update_self ..⟩
    · obtain ⟨s, hs⟩ := h.live a ha
      exact ⟨s, (Function.update_of_ne (hne ha) ..).trans hs⟩
  · intro a s
    unfold Entry SessionTable.add
    by_cases ha : a = table.next
    · subst ha
      simp [eq_comm]
    · simp [ha]
  · intro a s hentry
    constructor
    · exact fun hkey => absurd hkey (find_eq_none h hfind hentry)
    · exact fun heq => absurd heq (hne hentry.1)

theorem valid_store (h : Valid table) {old : TcpSession β} (hentry : Entry table address old)
    (session : TcpSession β) (hkey : session.key = old.key) :
    ∃ table', table.store address session = .ok table' ∧ Valid table' ∧
      Entry table' address session ∧ table'.dict = table.dict ∧
      view table' = Function.update (view table) session.key (some session) := by
  have hput := h.put { table with heap := Function.update table.heap address (some session) }
    address session h.nodup ?_ ?_ ?_ ?_ (hkey ▸ h.padless _ _ hentry)
  · refine ⟨_, ?_, hput.1, ⟨hentry.1, Function.update_self ..⟩, rfl, hput.2⟩
    rw [SessionTable.store, hentry.2]
    rfl
  · intro a ha
    have hfresh := h.fresh a ha
    refine (Function.update_of_ne ?_ ..).trans hfresh
    rintro rfl
    rw [hentry.2] at hfresh
    cases hfresh
  · intro a ha
    by_cases haddress : a = address
    · exact ⟨session, by rw [haddress]; exact Function.update_self ..⟩
    · obtain ⟨s, hs⟩ := h.live a ha
      exact ⟨s, (Function.update_of_ne haddress ..).trans hs⟩
  · intro a s
    unfold Entry
    by_cases ha : a = address
    · subst ha
      simp [hentry.1, eq_comm]
    · simp [ha]
  · intro a s ha
    rw [hkey]
    constructor
    · exact h.distinct a address s old ha hentry
    · rintro rfl
      have hs := ha.2
      rw [hentry.2] at hs
      cases hs
      rfl

theorem load_of_entry (hentry : Entry table address session) :
    table.load address = .ok session := by
  rw [SessionTable.load, hentry.2]
  rfl

theorem load_of_none (hheap : table.heap address = none) :
    table.load address = .error .outOfBounds := by
  rw [SessionTable.load, hheap]
  rfl

theorem entry_free_iff {a : Nat} {s : TcpSession β} :
    Entry (table.free address) a s ↔ a ≠ address ∧ Entry table a s := by
  unfold Entry SessionTable.free
  by_cases ha : a = address
  · subst ha
    simp
  · simp [ha]

theorem valid_free (h : Valid table) (hentry : Entry table address session) :
    Valid (table.free address) ∧
      view (table.free address) = Function.update (view table) session.key none := by
  have hvalid : Valid (table.free address) := by
    refine ⟨h.nodup.erase address, ?_, ?_, ?_, ?_⟩
    · intro a ha
      obtain ⟨hne, hmem⟩ := h.nodup.mem_erase_iff.1 ha
      obtain ⟨s, hs⟩ := h.live a hmem
      exact ⟨s, (Function.update_of_ne hne ..).trans hs⟩
    · intro a b s t ha hb
      exact h.distinct a b s t (entry_free_iff.1 ha).2 (entry_free_iff.1 hb).2
    · intro a ha
      by_cases haddress : a = address
      · rw [haddress]
        exact Function.update_self ..
      · exact (Function.update_of_ne haddress ..).trans (h.fresh a ha)
    · intro a s ha
      exact h.padless a s (entry_free_iff.1 ha).2
  refine ⟨hvalid, funext fun k => Option.ext fun s => ?_⟩
  rw [view_eq_some_iff hvalid]
  by_cases hk : k = session.key
  · subst hk
    rw [Function.update_self]
    constructor
    · rintro ⟨a, ha, heq⟩
      obtain ⟨hne, ha⟩ := entry_free_iff.1 ha
      exact absurd (h.distinct a address s session ha hentry heq) hne
    · intro hnone
      cases hnone
  · rw [Function.update_of_ne hk, view_eq_some_iff h]
    refine exists_congr fun a => and_congr_left fun heq => ?_
    rw [entry_free_iff]
    refine ⟨And.right, fun ha => ⟨?_, ha⟩⟩
    rintro rfl
    have hs := ha.2
    rw [hentry.2] at hs
    cases hs
    exact hk heq.symm

theorem valid_remove (h : Valid table) (key : ConnKey) : Valid (table.remove key) ∧
    view (table.remove key) = Function.update (view table) key none := by
  unfold SessionTable.remove
  cases hfind : table.find key with
  | none =>
    refine ⟨h, ?_⟩
    have hnone : view table key = none := by rw [view, hfind]; rfl
    exact (Function.update_eq_self_iff.2 hnone.symm).symm
  | some address =>
    obtain ⟨session, hentry, rfl, _⟩ := entry_of_find h hfind
    exact valid_free h hentry

theorem heap_remove_eq_none (key : ConnKey) (hheap : table.heap address = none) :
    (table.remove key).heap address = none := by
  unfold SessionTable.remove
  cases table.find key with
  | none => exact hheap
  | some other =>
    by_cases heq : address = other
    · rw [heq]
      exact Function.update_self ..
    · exact (Function.update_of_ne heq ..).trans hheap

theorem heap_remove_of_entry (h : Valid table) (hentry : Entry table address session) :
    (table.remove session.key).heap address = none := by
  rw [SessionTable.remove, (find_eq_some_iff h).2 ⟨session, hentry, rfl⟩]
  exact Function.update_self ..

end Table

/-! ## One packet -/

section Handle

variable {β : Type} (app : Application β) (memory : KeyMemory) {table : SessionTable β}
  (packet : PacketContext) (hdr : TcpHdr)

/-- There is a session, and it has sent its FIN. -/
def finSent (session : Option (TcpSession β)) : Bool :=
  session.any fun s => s.status == .finSent

/-- The packet disconnects: it has an ACK and both directions have sent their FIN. -/
def disconnecting (table : SessionTable β) : Bool :=
  finSent (view table (connKey packet)) && hdr.ack &&
    finSent (view table ((connKey packet).remote memory))

theorem disconnecting_iff : disconnecting memory packet hdr table = true ↔
    finSent (view table (connKey packet)) = true ∧ hdr.ack = true ∧
      finSent (view table ((connKey packet).remote memory)) = true := by
  simp only [disconnecting, Bool.and_eq_true, and_assoc]

/-- The session of the packet after the callback and the new sequence number. -/
def received (table : SessionTable β) : TcpSession β :=
  receive app packet hdr
    ((view table (connKey packet)).getD (newSession app (connKey packet) hdr))

/-- The map after a packet that disconnects, and after one that does not. -/
def nextView (session : TcpSession β) (table : SessionTable β) :
    ConnKey → Option (TcpSession β) :=
  if disconnecting memory packet hdr table then
    Function.update (Function.update (view table) (connKey packet) none)
      ((connKey packet).remote memory) none
  else Function.update (view table) (connKey packet) (some session)

theorem openSession_spec (h : Valid table) (key : ConnKey) (hpad : key.Padless) :
    let opened := openSession app table key hdr
    let session := (view table key).getD (newSession app key hdr)
    opened.found = (view table key).isSome ∧ Valid opened.table ∧
      Entry opened.table opened.address session ∧ session.key = key ∧
      view opened.table = Function.update (view table) key (some session) := by
  unfold openSession
  cases hfind : table.find key with
  | none =>
    have hnone : view table key = none := by rw [view, hfind]; rfl
    have hadd := valid_add h (newSession app key hdr) hfind hpad
    rw [hnone]
    exact ⟨rfl, hadd.1, ⟨List.mem_cons_self, Function.update_self ..⟩, rfl, hadd.2⟩
  | some address =>
    obtain ⟨session, hentry, hkey, hview⟩ := entry_of_find h hfind
    rw [hview]
    exact ⟨rfl, h, hentry, hkey, (Function.update_eq_self_iff.2 hview.symm).symm⟩

/-- The status of the session of a key, if it has one. -/
theorem find_elim_finSentAt (h : Valid table) (key : ConnKey) :
    (table.find key).elim (return false) (finSentAt table) = .ok (finSent (view table key)) := by
  cases hfind : table.find key with
  | none => rw [view, hfind]; rfl
  | some address =>
    obtain ⟨session, hentry, _, hview⟩ := entry_of_find h hfind
    rw [hview, Option.elim_some, finSentAt, load_of_entry hentry]
    rfl

/-- A new session is established, so the status of the received session is that of the map. -/
theorem finSent_received (table : SessionTable β) :
    finSent (some (received app packet hdr table)) = finSent (view table (connKey packet)) := by
  unfold received
  cases view table (connKey packet) with
  | none => rfl
  | some session => rfl

/-- The test of the disconnect block, after the received session was written. -/
theorem disconnects_eq {table' : SessionTable β} (h' : Valid table') {address : Nat}
    (hentry : Entry table' address (received app packet hdr table))
    (hview : view table' =
      Function.update (view table) (connKey packet) (some (received app packet hdr table))) :
    disconnects table' address ((connKey packet).remote memory) hdr =
      .ok (disconnecting memory packet hdr table) := by
  have hsent := finSent_received app packet hdr table
  have hremote := find_elim_finSentAt h' ((connKey packet).remote memory)
  have hown : finSentAt table' address = .ok (finSent (view table (connKey packet))) := by
    rw [finSentAt, load_of_entry hentry, ← hsent]
    rfl
  unfold disconnects disconnecting
  rw [hown, ok_bind, hremote, hview]
  cases hstatus : finSent (view table (connKey packet)) with
  | false => rfl
  | true =>
    -- a connection of a socket to itself finds the session that was just written
    by_cases hself : (connKey packet).remote memory = connKey packet
    · rw [hself, Function.update_self, hsent, hstatus]
      cases hdr.ack with
      | false => rfl
      | true => rfl
    · rw [Function.update_of_ne hself]
      cases hdr.ack with
      | false => rfl
      | true => rfl

/-- The packet handler up to its last statement: the received session is written, whatever the
padding of the other key is, and then both keys are removed if the packet disconnects. -/
theorem tcpPacketUpdate_eq (h : Valid table) :
    ∃ stored address, Valid stored ∧ Entry stored address (received app packet hdr table) ∧
      view stored =
        Function.update (view table) (connKey packet) (some (received app packet hdr table)) ∧
      ∀ memory, tcpPacketUpdate app memory table packet hdr = .ok
        ⟨address,
          ⟨(view table (connKey packet)).isSome, disconnecting memory packet hdr table⟩,
          if disconnecting memory packet hdr table then
            (stored.remove (connKey packet)).remove ((connKey packet).remote memory)
          else stored⟩ := by
  obtain ⟨hfound, hvalid, hentry, hkey, hview⟩ :=
    openSession_spec app hdr h (connKey packet) ⟨rfl, rfl⟩
  have hkey' : (received app packet hdr table).key = connKey packet := hkey
  obtain ⟨stored, hstore, hstored, hentry', _, hview'⟩ :=
    valid_store hvalid hentry (received app packet hdr table) rfl
  rw [hview, hkey', Function.update_idem] at hview'
  have hstore' : (openSession app table (connKey packet) hdr).table.store _
    (receive app packet hdr _) = .ok stored := hstore
  refine ⟨stored, _, hstored, hentry', hview', fun memory => ?_⟩
  unfold tcpPacketUpdate
  simp only [load_of_entry hentry, ok_bind, hstore', hfound,
    disconnects_eq app memory packet hdr hstored hentry' hview']
  rfl

/-- The packet handler up to its last statement. If the packet disconnects, the pointer to its
session is no longer valid. -/
theorem tcpPacketUpdate_spec (h : Valid table) :
    ∃ updated, tcpPacketUpdate app memory table packet hdr = .ok updated ∧
      Valid updated.table ∧
      updated.handled =
        ⟨(view table (connKey packet)).isSome, disconnecting memory packet hdr table⟩ ∧
      view updated.table =
        nextView memory packet hdr (received app packet hdr table) table ∧
      if disconnecting memory packet hdr table then updated.table.heap updated.address = none
      else Entry updated.table updated.address (received app packet hdr table) := by
  obtain ⟨stored, address, hstored, hentry, hview, hupdate⟩ :=
    tcpPacketUpdate_eq app packet hdr h
  refine ⟨_, hupdate memory, ?_⟩
  unfold nextView
  cases hdisconnect : disconnecting memory packet hdr table with
  | false => exact ⟨hstored, rfl, hview, hentry⟩
  | true =>
    have hkey : (received app packet hdr table).key = connKey packet :=
      (openSession_spec app hdr h (connKey packet) ⟨rfl, rfl⟩).2.2.2.1
    have hown := valid_remove hstored (connKey packet)
    have hboth := valid_remove hown.1 ((connKey packet).remote memory)
    have hgone := heap_remove_of_entry hstored hentry
    rw [hkey] at hgone
    refine ⟨hboth.1, rfl, ?_, heap_remove_eq_none _ hgone⟩
    exact hboth.2.trans (by rw [hown.2, hview, Function.update_idem]; rfl)

/-- A FIN of a packet that disconnects is written to a freed session. -/
theorem tcpPacketHandle_of_lateFin (h : Valid table)
    (hdisconnect : disconnecting memory packet hdr table = true) (hfin : hdr.fin = true) :
    tcpPacketHandle app memory table packet hdr = .error .outOfBounds := by
  obtain ⟨updated, hupdate, _, _, _, hgone⟩ := tcpPacketUpdate_spec app memory packet hdr h
  rw [if_pos hdisconnect] at hgone
  rw [tcpPacketHandle, hupdate, ok_bind, markFin, if_pos hfin, load_of_none hgone]
  rfl

/-- The session of a packet after its last statement. -/
def marked (session : TcpSession β) : TcpSession β :=
  { session with status := if hdr.fin then .finSent else session.status }

/-- Every other packet is handled, and the table stands for the next map. -/
theorem tcpPacketHandle_spec (h : Valid table)
    (hlate : ¬ (disconnecting memory packet hdr table = true ∧ hdr.fin = true)) :
    ∃ table', tcpPacketHandle app memory table packet hdr =
        .ok (⟨(view table (connKey packet)).isSome, disconnecting memory packet hdr table⟩,
          table') ∧
      Valid table' ∧
      view table' =
        nextView memory packet hdr (marked hdr (received app packet hdr table)) table := by
  obtain ⟨updated, hupdate, hvalid, hhandled, hview, hpointer⟩ :=
    tcpPacketUpdate_spec app memory packet hdr h
  unfold tcpPacketHandle
  rw [hupdate, ok_bind, hhandled, markFin]
  cases hfin : hdr.fin with
  | false =>
    refine ⟨updated.table, rfl, hvalid, ?_⟩
    rw [hview, marked, hfin]
    rfl
  | true =>
    have hstays : disconnecting memory packet hdr table = false := by
      rw [hfin] at hlate
      simpa using hlate
    rw [hstays] at hpointer
    obtain ⟨table', hstore, hvalid', _, _, hview'⟩ :=
      valid_store hvalid hpointer (marked hdr (received app packet hdr table)) rfl
    have hkey : (marked hdr (received app packet hdr table)).key = connKey packet :=
      (openSession_spec app hdr h (connKey packet) ⟨rfl, rfl⟩).2.2.2.1
    refine ⟨table', ?_, hvalid', ?_⟩
    · rw [marked, hfin] at hstore
      rw [if_pos rfl, load_of_entry hpointer, ok_bind]
      exact congrArg (· >>= _) hstore
    · rw [hview', hview, hkey]
      unfold nextView
      rw [hstays, if_neg Bool.false_ne_true, if_neg Bool.false_ne_true, Function.update_idem]

theorem tcpPacketHandle_eq_ok (h : Valid table) {handled : Handled} {table' : SessionTable β}
    (hhandle : tcpPacketHandle app memory table packet hdr = .ok (handled, table')) :
    handled = ⟨(view table (connKey packet)).isSome, disconnecting memory packet hdr table⟩ ∧
      Valid table' ∧
      view table' =
        nextView memory packet hdr (marked hdr (received app packet hdr table)) table := by
  by_cases hlate : disconnecting memory packet hdr table = true ∧ hdr.fin = true
  · rw [tcpPacketHandle_of_lateFin app _ _ _ h hlate.1 hlate.2] at hhandle
    cases hhandle
  · obtain ⟨next, hnext, hvalid, hview⟩ := tcpPacketHandle_spec app memory packet hdr h hlate
    rw [hhandle] at hnext
    cases hnext
    exact ⟨rfl, hvalid, hview⟩

/-- The padding of the other key only matters if it decides whether the packet disconnects. -/
theorem tcpPacketHandle_congr (h : Valid table) {memory memory' : KeyMemory}
    (hmemory : disconnecting memory packet hdr table = false)
    (hmemory' : disconnecting memory' packet hdr table = false) :
    tcpPacketHandle app memory table packet hdr = tcpPacketHandle app memory' table packet hdr := by
  obtain ⟨stored, address, _, _, _, hupdate⟩ := tcpPacketUpdate_eq app packet hdr h
  unfold tcpPacketHandle
  rw [hupdate memory, hupdate memory', hmemory, hmemory']
  rfl

/-- A packet only disconnects if the padding of the other key is zero. -/
theorem disconnecting_of_padding (h : Valid table) (hmemory : memory ≠ ⟨0, 0⟩) :
    disconnecting memory packet hdr table = false := by
  have hnone : view table ((connKey packet).remote memory) = none := by
    refine view_of_not_padless h fun hpad => hmemory ?_
    obtain ⟨hsrc, hdst⟩ : memory.src = 0 ∧ memory.dst = 0 := hpad
    cases memory
    simp_all
  rw [disconnecting, hnone]
  exact Bool.and_false _

end Handle

/-! ## Runs -/

section Runs

variable {β : Type} (app : Application β)

/-- A TCP packet as the handler gets it. -/
structure TcpPacket where
  ctx : PacketContext
  hdr : TcpHdr
  deriving DecidableEq, Repr

/-- Handle a packet, with padding of zero. -/
def handlePacket (table : SessionTable β) (packet : TcpPacket) :
    Except Fault (SessionTable β) := do
  let result ← tcpPacketHandle app ⟨0, 0⟩ table packet.ctx packet.hdr
  return result.2

/-- A directed connection: the key without its padding. -/
def ConnKey.directed (key : ConnKey) : UInt32 × UInt16 × UInt32 × UInt16 :=
  (key.src.addr, key.src.port, key.dst.addr, key.dst.port)

/-- The key of the opposite direction. -/
def ConnKey.opposite (key : ConnKey) : ConnKey :=
  key.remote ⟨0, 0⟩

/-- The table holds at most one session for each directed connection. -/
def OnePerConnection (table : SessionTable β) : Prop :=
  table.dict.Nodup ∧ ∀ a b s t, Entry table a s → Entry table b t →
    s.key.directed = t.key.directed → a = b

/-- A packet that removes a session removes that of the opposite direction with it. -/
def RemovesPairs (table : SessionTable β) (packet : TcpPacket) : Prop :=
  ∀ updated, tcpPacketUpdate app ⟨0, 0⟩ table packet.ctx packet.hdr = .ok updated →
    ∀ key, (view table key).isSome → view updated.table key = none →
      (view table key.opposite).isSome ∧ view updated.table key.opposite = none

/-- The packet is handled without a write to a freed session. -/
def NoWriteAfterFree (table : SessionTable β) (packet : TcpPacket) : Prop :=
  ∃ table', handlePacket app table packet = .ok table'

/-- A FIN of a packet that disconnects: both directions had sent their FIN before, so it is a
retransmission, and it has an ACK. -/
def LateFin (table : SessionTable β) (packet : TcpPacket) : Prop :=
  packet.hdr.fin = true ∧ disconnecting ⟨0, 0⟩ packet.ctx packet.hdr table = true

variable {app}

theorem eq_of_directed {key key' : ConnKey} (hkey : key.Padless) (hkey' : key'.Padless)
    (h : key.directed = key'.directed) : key = key' := by
  obtain ⟨⟨addr, port, pad⟩, ⟨addr', port', pad'⟩⟩ := key
  obtain ⟨⟨srcAddr, srcPort, srcPad⟩, ⟨dstAddr, dstPort, dstPad⟩⟩ := key'
  simp only [ConnKey.Padless] at hkey hkey'
  simp only [ConnKey.directed, Prod.mk.injEq] at h
  simp [h, hkey, hkey']

theorem Valid.onePerConnection {table : SessionTable β} (h : Valid table) :
    OnePerConnection table := by
  refine ⟨h.nodup, fun a b s t ha hb heq => ?_⟩
  exact h.distinct a b s t ha hb (eq_of_directed (h.padless a s ha) (h.padless b t hb) heq)

theorem noWriteAfterFree_iff {table : SessionTable β} (h : Valid table) (packet : TcpPacket) :
    NoWriteAfterFree app table packet ↔ ¬ LateFin table packet := by
  constructor
  · rintro ⟨table', hhandle⟩ ⟨hfin, hdisconnect⟩
    rw [handlePacket, tcpPacketHandle_of_lateFin app _ _ _ h hdisconnect hfin] at hhandle
    cases hhandle
  · intro hlate
    obtain ⟨table', hhandle, _⟩ := tcpPacketHandle_spec app ⟨0, 0⟩ packet.ctx packet.hdr h
      fun hboth => hlate ⟨hboth.2, hboth.1⟩
    refine ⟨table', ?_⟩
    rw [handlePacket, hhandle]
    rfl

theorem Valid.handlePacket {table table' : SessionTable β} (h : Valid table) (packet : TcpPacket)
    (hhandle : Pfpa.handlePacket app table packet = .ok table') : Valid table' := by
  obtain ⟨⟨handled, next⟩, hnext, hresult⟩ := bind_eq_ok.mp hhandle
  cases hresult
  exact (tcpPacketHandle_eq_ok app _ _ _ h hnext).2.1

theorem opposite_opposite {key : ConnKey} (hkey : key.Padless) : key.opposite.opposite = key :=
  eq_of_directed ⟨rfl, rfl⟩ hkey rfl

theorem isSome_of_finSent {session : Option (TcpSession β)} (h : finSent session = true) :
    session.isSome := by
  cases session with
  | none => cases h
  | some session => rfl

/-- Only a packet that disconnects removes sessions, and it removes both. -/
theorem Valid.removesPairs {table : SessionTable β} (h : Valid table) (packet : TcpPacket) :
    RemovesPairs app table packet := by
  intro updated hupdate key hbefore hafter
  obtain ⟨_, hupdate', _, _, hview, _⟩ :=
    tcpPacketUpdate_spec app ⟨0, 0⟩ packet.ctx packet.hdr h
  rw [hupdate] at hupdate'
  cases hupdate'
  rw [hview] at hafter ⊢
  unfold nextView at hafter ⊢
  cases hdisconnect : disconnecting ⟨0, 0⟩ packet.ctx packet.hdr table with
  | false =>
    rw [hdisconnect, if_neg Bool.false_ne_true] at hafter
    by_cases hkey : key = connKey packet.ctx
    · rw [hkey, Function.update_self] at hafter
      cases hafter
    · rw [Function.update_of_ne hkey] at hafter
      rw [hafter] at hbefore
      cases hbefore
  | true =>
    obtain ⟨hown, _, hremote⟩ := (disconnecting_iff _ _ _).1 hdisconnect
    rw [hdisconnect, if_pos rfl] at hafter
    rw [if_pos rfl]
    have hopposite : ((connKey packet.ctx).remote ⟨0, 0⟩).opposite = connKey packet.ctx :=
      opposite_opposite ⟨rfl, rfl⟩
    by_cases hkey : key = (connKey packet.ctx).remote ⟨0, 0⟩
    · rw [hkey, hopposite]
      refine ⟨isSome_of_finSent hown, ?_⟩
      rw [Function.update_apply, Function.update_self, ite_self]
    · by_cases hkey' : key = connKey packet.ctx
      · rw [hkey']
        exact ⟨isSome_of_finSent hremote, Function.update_self ..⟩
      · rw [Function.update_of_ne hkey, Function.update_of_ne hkey'] at hafter
        rw [hafter] at hbefore
        cases hbefore

/-- For every sequence of TCP packets from an empty table: there is at most one session for each
directed connection at every point, sessions are removed in pairs, and no packet writes to a
session that it has freed, exactly if no packet of the sequence is a late FIN. -/
theorem session_discipline_iff (app : Application β) (packets : List TcpPacket) :
    (Throughout (handlePacket app) OnePerConnection .empty packets ∧
      Along (handlePacket app) (RemovesPairs app) .empty packets ∧
      Along (handlePacket app) (NoWriteAfterFree app) .empty packets) ↔
    Along (handlePacket app) (fun table packet => ¬ LateFin table packet) .empty packets := by
  have hvalid : Throughout (handlePacket app) Valid .empty packets :=
    throughout_of_step (fun _ packet _ h => h.handlePacket packet) valid_empty packets
  have hone := hvalid.mono fun _ h => h.onePerConnection
  have hpairs : Along (handlePacket app) (RemovesPairs app) .empty packets :=
    hvalid.along fun _ packet h => h.removesPairs packet
  rw [← hvalid.along_congr fun _ packet h => noWriteAfterFree_iff h packet]
  exact ⟨fun h => h.2.2, fun h => ⟨hone, hpairs, h⟩⟩

end Runs

/-- A packet from port 1 to port 2, or back, with the flags FIN and ACK. -/
def finAck (sport dport : UInt16) : TcpPacket where
  ctx := ⟨1, 1, sport, dport, 0, 0⟩
  hdr := ⟨0, 0, 0x11⟩

/-- A connection is closed from both sides, and the first FIN is retransmitted with an ACK. The
third packet removes both sessions and then writes to the freed one. -/
theorem retransmitted_fin_writes_freed_session :
    (∃ table, [finAck 1 2, finAck 2 1].foldlM (handlePacket ⟨(), none⟩) .empty = .ok table ∧
      handlePacket ⟨(), none⟩ table (finAck 1 2) = .error .outOfBounds) :=
  ⟨_, rfl, rfl⟩

end HakunaMatata.Pfpa
