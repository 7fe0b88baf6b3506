import Mathlib.Data.List.Basic
import HakunaMatata.Base.Transaction

/-!
# New trade records, `TradeService.java`

`NewTradeRecord` inserts a record into `trade_record` and, if that has made a row, puts it into the
Redis hash of its account. The insert is in a transaction and the hash is not. A call whose put has
reached Redis and whose transaction does not commit leaves a record in the hash that the database
does not have. `agree_iff_along` says that the hashes and the table agree exactly as long as no
call ends like that.
-/

namespace HakunaMatata.MybatisRedis.TradeService

open Base

/-- `TradeRecord`; the price is given by its bits, and the date by its number. -/
structure TradeRecord where
  id : Option String
  accountId : Option Int
  productId : Option String
  price : Option (BitVec 64)
  tradeTime : Option Int
  tradeDate : Option Int
  deriving DecidableEq, Repr

/-- An entry of a Redis hash. There is one hash for each account, whose key is `TradeRecord:` and
the account. -/
structure Entry where
  account : Int
  field : String
  record : TradeRecord
  deriving DecidableEq, Repr

/-- The rows of `trade_record`, and the entries in Redis. -/
abbrev State := World (List TradeRecord) (List Entry)

/-- An unchecked exception. -/
inductive Exn where
  | notNull
  | duplicateKey
  | mapper
  | nullPointer
  | redis
  | commit
  deriving DecidableEq, Repr

/-- A method of the service. -/
abbrev Service := Procedure Exn (List TradeRecord) (List Entry)

/-- How an insert goes: it is executed, reports no row, or throws. -/
inductive Insert where
  | executed
  | noRow
  | thrown
  deriving DecidableEq, Repr

/-- How a put goes: it is executed, or throws, before or after Redis has executed it. -/
inductive Put where
  | executed
  | thrown (applied : Bool)
  deriving DecidableEq, Repr

/-- A column would be null; every column is `NOT NULL`. -/
def TradeRecord.hasNull (record : TradeRecord) : Bool :=
  record.id.isNone || record.accountId.isNone || record.productId.isNone || record.price.isNone ||
    record.tradeTime.isNone || record.tradeDate.isNone

/-- `TradeRecordMapper.InsertRecord`: the number of rows. -/
def insertRecord (outcome : Insert) (record : TradeRecord) : Service Nat := fun w =>
  match outcome with
  | .thrown => .error .mapper w
  | .noRow => .ok 0 w
  | .executed =>
    if record.hasNull then .error .notNull w
    else if record.id ∈ w.database.map TradeRecord.id then .error .duplicateKey w
    else .ok 1 { w with database := w.database ++ [record] }

/-- Set a field of a hash. -/
def hset (entries : List Entry) (entry : Entry) : List Entry :=
  entries.filter (fun old => ¬ (old.account = entry.account ∧ old.field = entry.field)) ++ [entry]

/-- `hashOperations.put`. -/
def put (outcome : Put) (entry : Entry) : Service Unit := fun w =>
  match outcome with
  | .executed => .ok () { w with outside := hset w.outside entry }
  | .thrown true => .error .redis { w with outside := hset w.outside entry }
  | .thrown false => .error .redis w

/-- A call: its argument, and how the insert, the put and the commit go. -/
structure Op where
  record : TradeRecord
  insert : Insert
  put : Put
  commitFails : Bool
  deriving DecidableEq, Repr

/-- The part of the method after an insert that has made a row. -/
def cache (op : Op) : Service TradeRecord := do
  let accountId ← op.record.accountId.elim (throw .nullPointer) pure
  let id ← op.record.id.elim (throw .redis) pure
  put op.put ⟨accountId, id, op.record⟩
  pure op.record

/-- The body of `TradeService.NewTradeRecord`. -/
def newTradeRecordBody (op : Op) : Service TradeRecord := do
  let ret ← insertRecord op.insert op.record
  if ret = 1 then cache op else pure op.record

/-- `TradeService.NewTradeRecord`, which is `@Transactional`. -/
def newTradeRecord (op : Op) : Service TradeRecord :=
  transactional (if op.commitFails then some .commit else none) (newTradeRecordBody op)

/-- The state after a call, whether it has returned or thrown. -/
def step (w : State) (op : Op) : Except Fault State :=
  .ok (left (newTradeRecord op w))

/-- The values of the hash of an account. -/
def hash (w : State) (account : Int) : List TradeRecord :=
  (w.outside.filter fun entry => entry.account = account).map Entry.record

/-- The hash of every account that has been written has exactly the records that the database has
for the account. -/
def Agree (w : State) : Prop :=
  ∀ account, hash w account ≠ [] → ∀ record,
    record ∈ hash w account ↔ record ∈ w.database ∧ record.accountId = some account

/-- The insert makes a row. -/
def Accepted (w : State) (op : Op) : Prop :=
  op.insert = .executed ∧ op.record.hasNull = false ∧
    op.record.id ∉ w.database.map TradeRecord.id

instance (w : State) (op : Op) : Decidable (Accepted w op) :=
  inferInstanceAs (Decidable (_ ∧ _))

/-- The put reaches Redis, and the transaction does not commit. -/
def Phantom (w : State) (op : Op) : Prop :=
  Accepted w op ∧ (op.put = .thrown true ∨ op.put = .executed ∧ op.commitFails = true)

instance (w : State) (op : Op) : Decidable (Phantom w op) :=
  inferInstanceAs (Decidable (_ ∧ _))

/-! ## What a call can come to -/

/-- The entry that a call puts into Redis. -/
def IsEntry (op : Op) (entry : Entry) : Prop :=
  op.record.accountId = some entry.account ∧ op.record.id = some entry.field ∧
    entry.record = op.record

/-- The state after a call. -/
inductive Moved (w : State) (op : Op) : State → Prop where
  | same : ¬ Phantom w op → Moved w op w
  | both {entry : Entry} : ¬ Phantom w op → Accepted w op → IsEntry op entry →
      Moved w op ⟨w.database ++ [op.record], hset w.outside entry⟩
  | phantom {entry : Entry} : Phantom w op → IsEntry op entry →
      Moved w op ⟨w.database, hset w.outside entry⟩

section Calls

variable {w w' : State} {op : Op}

theorem left_of_body_error {e : Exn} (h : newTradeRecordBody op w = .error e w') :
    left (newTradeRecord op w) = ⟨w.database, w'.outside⟩ := by
  rw [newTradeRecord, transactional_of_error h]
  rfl

theorem left_of_body_ok {record : TradeRecord} (h : newTradeRecordBody op w = .ok record w') :
    left (newTradeRecord op w) =
      if op.commitFails then ⟨w.database, w'.outside⟩ else w' := by
  unfold newTradeRecord
  split
  · rw [transactional_commit_fails h]
    rfl
  · rw [transactional_of_ok h]
    rfl

theorem insertRecord_executed (record : TradeRecord) :
    insertRecord .executed record w =
      if record.hasNull then .error .notNull w
      else if record.id ∈ w.database.map TradeRecord.id then .error .duplicateKey w
      else .ok 1 { w with database := w.database ++ [record] } :=
  rfl

theorem moved_of_not_accepted (h : ¬ Accepted w op) : Moved w op (left (newTradeRecord op w)) := by
  have hno : ¬ Phantom w op := fun hphantom => h hphantom.1
  cases hinsert : op.insert with
  | thrown =>
    have hrun : insertRecord op.insert op.record w = .error .mapper w := by
      rw [hinsert]
      rfl
    rw [left_of_body_error (bind_of_error hrun)]
    exact .same hno
  | noRow =>
    have hrun : insertRecord op.insert op.record w = .ok 0 w := by
      rw [hinsert]
      rfl
    rw [left_of_body_ok (bind_of_ok hrun)]
    split
    · exact .same hno
    · exact .same hno
  | executed =>
    have hrun : ∃ e, insertRecord op.insert op.record w = .error e w := by
      rw [hinsert, insertRecord_executed]
      split
      · exact ⟨_, rfl⟩
      · rename_i hnull
        split
        · exact ⟨_, rfl⟩
        · rename_i hid
          exact absurd ⟨hinsert, by simpa using hnull, hid⟩ h
    obtain ⟨e, hrun⟩ := hrun
    rw [left_of_body_error (bind_of_error hrun)]
    exact .same hno

theorem exists_entry (h : op.record.hasNull = false) : ∃ entry, IsEntry op entry := by
  simp only [TradeRecord.hasNull, Bool.or_eq_false_iff, Option.isNone_eq_false_iff] at h
  obtain ⟨account, haccount⟩ := Option.isSome_iff_exists.mp h.1.1.1.1.2
  obtain ⟨field, hfield⟩ := Option.isSome_iff_exists.mp h.1.1.1.1.1
  exact ⟨⟨account, field, op.record⟩, haccount, hfield, rfl⟩

theorem cache_eq {entry : Entry} (h : IsEntry op entry) (w : State) :
    cache op w = (put op.put entry >>= fun _ => pure op.record) w := by
  obtain ⟨account, field, record⟩ := entry
  obtain ⟨haccount, hfield, rfl⟩ := h
  unfold cache
  rw [haccount, hfield]
  rfl

theorem newTradeRecordBody_of_accepted {entry : Entry} (h : Accepted w op)
    (hentry : IsEntry op entry) :
    newTradeRecordBody op w = (put op.put entry >>= fun _ => pure op.record)
      { w with database := w.database ++ [op.record] } := by
  have hinsert : insertRecord op.insert op.record w =
      .ok 1 { w with database := w.database ++ [op.record] } := by
    rw [h.1, insertRecord_executed, if_neg (Bool.eq_false_iff.mp h.2.1), if_neg h.2.2]
  exact (bind_of_ok hinsert).trans (cache_eq hentry _)

theorem moved_of_accepted (h : Accepted w op) : Moved w op (left (newTradeRecord op w)) := by
  obtain ⟨entry, hentry⟩ := exists_entry h.2.1
  have hbody := newTradeRecordBody_of_accepted h hentry
  cases hput : op.put with
  | executed =>
    rw [hput] at hbody
    rw [left_of_body_ok (hbody.trans (bind_of_ok rfl))]
    split
    · rename_i hcommit
      exact .phantom ⟨h, Or.inr ⟨hput, hcommit⟩⟩ hentry
    · rename_i hcommit
      refine .both (fun hphantom => ?_) h hentry
      rcases hphantom.2 with hthrown | ⟨_, hfails⟩
      · exact nomatch hput.symm.trans hthrown
      · exact hcommit hfails
  | thrown applied =>
    rw [hput] at hbody
    cases applied with
    | true =>
      rw [left_of_body_error (hbody.trans (bind_of_error rfl))]
      exact .phantom ⟨h, Or.inl hput⟩ hentry
    | false =>
      rw [left_of_body_error (hbody.trans (bind_of_error rfl))]
      refine .same fun hphantom => ?_
      rcases hphantom.2 with hthrown | ⟨hexecuted, _⟩
      · exact nomatch hput.symm.trans hthrown
      · exact nomatch hput.symm.trans hexecuted

theorem moved (w : State) (op : Op) : Moved w op (left (newTradeRecord op w)) := by
  by_cases h : Accepted w op
  · exact moved_of_accepted h
  · exact moved_of_not_accepted h

end Calls

/-! ## Histories -/

/-- The entries in Redis are those of the rows. -/
structure Mirrored (w : State) : Prop where
  entries : ∀ entry ∈ w.outside, entry.record ∈ w.database ∧
    entry.record.accountId = some entry.account ∧ entry.record.id = some entry.field
  cached : ∀ record ∈ w.database, ∃ entry ∈ w.outside, entry.record = record

section Histories

variable {w w' : State} {op : Op} {entry : Entry}

theorem mem_hash {account : Int} {record : TradeRecord} :
    record ∈ hash w account ↔
      ∃ entry ∈ w.outside, entry.account = account ∧ entry.record = record := by
  simp [hash, and_assoc]

theorem Mirrored.agree (h : Mirrored w) : Agree w := by
  intro account _ record
  rw [mem_hash]
  constructor
  · rintro ⟨entry, hmem, rfl, rfl⟩
    exact ⟨(h.entries entry hmem).1, (h.entries entry hmem).2.1⟩
  · rintro ⟨hrow, haccount⟩
    obtain ⟨entry, hmem, rfl⟩ := h.cached record hrow
    refine ⟨entry, hmem, ?_, rfl⟩
    exact Option.some.inj ((h.entries entry hmem).2.1.symm.trans haccount)

/-- A record that is new in the database is new in Redis. -/
theorem Mirrored.hset_eq (h : Mirrored w) (haccepted : Accepted w op) (hentry : IsEntry op entry) :
    hset w.outside entry = w.outside ++ [entry] := by
  unfold hset
  congr 1
  refine List.filter_eq_self.mpr fun old hold => decide_eq_true fun hsame => ?_
  obtain ⟨hrow, _, hid⟩ := h.entries old hold
  have hold : op.record.id = old.record.id := by rw [hentry.2.1, hid, hsame.2]
  exact haccepted.2.2 (hold ▸ List.mem_map_of_mem hrow)

theorem Mirrored.both (h : Mirrored w) (haccepted : Accepted w op) (hentry : IsEntry op entry) :
    Mirrored ⟨w.database ++ [op.record], hset w.outside entry⟩ := by
  rw [h.hset_eq haccepted hentry]
  obtain ⟨haccount, hfield, hrecord⟩ := hentry
  refine ⟨fun other hother => ?_, fun record hrow => ?_⟩
  · rcases List.mem_append.mp hother with hold | hnew
    · obtain ⟨hrow, hfields⟩ := h.entries other hold
      exact ⟨List.mem_append_left _ hrow, hfields⟩
    · obtain rfl := List.mem_singleton.mp hnew
      rw [hrecord]
      exact ⟨List.mem_append_right _ (List.mem_singleton.mpr rfl), haccount, hfield⟩
  · rcases List.mem_append.mp hrow with hold | hnew
    · obtain ⟨other, hother, heq⟩ := h.cached record hold
      exact ⟨other, List.mem_append_left _ hother, heq⟩
    · obtain rfl := List.mem_singleton.mp hnew
      exact ⟨entry, List.mem_append_right _ (List.mem_singleton.mpr rfl), hrecord⟩

theorem not_agree_phantom (haccepted : Accepted w op) (hentry : IsEntry op entry) :
    ¬ Agree ⟨w.database, hset w.outside entry⟩ := by
  intro hagree
  have hmem : op.record ∈ hash ⟨w.database, hset w.outside entry⟩ entry.account :=
    mem_hash.mpr ⟨entry, List.mem_append_right _ (List.mem_singleton.mpr rfl), rfl, hentry.2.2⟩
  have hrow := ((hagree entry.account (List.ne_nil_of_mem hmem) op.record).mp hmem).1
  exact haccepted.2.2 (List.mem_map_of_mem hrow)

/-- A call keeps the agreement exactly if it does not leave a record in Redis only. -/
theorem Mirrored.step (h : Mirrored w) (hstep : step w op = .ok w') :
    (Agree w' ↔ ¬ Phantom w op) ∧ (¬ Phantom w op → Mirrored w') := by
  have hmoved := moved w op
  cases hstep
  generalize left (newTradeRecord op w) = next at hmoved
  cases hmoved with
  | same hno => exact ⟨⟨fun _ => hno, fun _ => h.agree⟩, fun _ => h⟩
  | both hno haccepted hentry =>
    have hboth := h.both haccepted hentry
    exact ⟨⟨fun _ => hno, fun _ => hboth.agree⟩, fun _ => hboth⟩
  | phantom hphantom hentry =>
    have hnot := not_agree_phantom hphantom.1 hentry
    exact ⟨⟨fun hagree => absurd hagree hnot, fun hno => absurd hphantom hno⟩,
      fun hno => absurd hphantom hno⟩

end Histories

/-- No records. -/
def State.init : State := ⟨[], []⟩

theorem mirrored_init : Mirrored State.init :=
  ⟨fun _ h => absurd h List.not_mem_nil, fun _ h => absurd h List.not_mem_nil⟩

/-- Redis and the database agree after every call exactly if no call leaves a record in Redis
only. -/
theorem agree_iff_along (ops : List Op) :
    Throughout step Agree State.init ops ↔
      Along step (fun w op => ¬ Phantom w op) State.init ops :=
  throughout_iff_along_of_inv (fun _ _ _ h hstep => (h.step hstep).1)
    (fun _ _ _ h hstep => (h.step hstep).2) (fun _ _ _ _ hstep => nomatch hstep)
    (fun _ h => h.agree) mirrored_init

/-- A call whose commit fails. -/
def lostCommit : Op where
  record := ⟨some "r1", some 7, some "p1", some 0, some 1, some 2⟩
  insert := .executed
  put := .executed
  commitFails := true

/-- The hash of the account has a record, and the table is empty. -/
theorem lostCommit_not_agree :
    newTradeRecord lostCommit State.init = .error .commit ⟨[], [⟨7, "r1", lostCommit.record⟩]⟩ ∧
      ¬ Throughout step Agree State.init [lostCommit] := by
  refine ⟨rfl, fun h => ?_⟩
  have hagree := (h.2 _ rfl).head
  exact ((mirrored_init.step rfl).1.mp hagree) (by decide)

end HakunaMatata.MybatisRedis.TradeService
