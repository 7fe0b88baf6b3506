import Mathlib.Data.List.Basic
import HakunaMatata.Base.Transaction

/-!
# Creating an account, `AccountService.java`

An account has a row in `account_info` and one in `account_passwd`. `CreateAccount` inserts the two
in a transaction, and returns `null` if an insert reports no row. A method that returns commits, so
that a second insert without a row leaves the first one in the database.
`allOrNothing_iff_along` says that this is the only way in which a history of calls can go wrong.
-/

namespace HakunaMatata.MybatisRedis

open Base

/-- An unchecked exception of a mapper. -/
inductive MapperException where
  | duplicateKey
  | failed
  deriving DecidableEq, Repr

/-- The result of an insert: the number of rows it reports, or an exception. -/
inductive Insert where
  | count (rows : Nat)
  | thrown
  deriving DecidableEq, Repr

namespace AccountService

/-- `Account`. -/
structure Account where
  id : Option Int
  name : Option String
  phone : Option String
  mail : Option String
  password : Option String
  deriving DecidableEq, Repr

/-- A row of `account_info`. -/
structure Info where
  id : Int
  name : Option String
  phone : Option String
  mail : Option String
  deriving DecidableEq, Repr

/-- A row of `account_passwd`; the columns that no statement writes are left out. -/
structure Passwd where
  id : Int
  passwd : Option String
  deriving DecidableEq, Repr

/-- The two tables. -/
structure Database where
  info : List Info
  passwd : List Passwd
  deriving DecidableEq, Repr

/-- The database, and the next value of `AUTO_INCREMENT`, which no transaction takes back. -/
abbrev State := World Database Int

/-- Empty tables. -/
def State.init : State := ⟨⟨[], []⟩, 1⟩

/-- A method of the service. -/
abbrev Service := Procedure MapperException Database Int

/-- The value is there already; null values are never equal. -/
def taken (values : List (Option String)) (value : Option String) : Bool :=
  value.isSome && values.contains value

/-- A row violates one of the indices `INDEX_phone` and `INDEX_mail`. -/
def violates (database : Database) (account : Account) : Bool :=
  taken (database.info.map Info.phone) account.phone ||
    taken (database.info.map Info.mail) account.mail

/-- The row of `account_info` for an account. -/
def infoRow (id : Int) (account : Account) : Info :=
  ⟨id, account.name, account.phone, account.mail⟩

/-- `AccountMapper.createAccountInfo`: the number of rows, and the account with the generated id. -/
def createAccountInfo (outcome : Insert) (account : Account) : Service (Nat × Account) := fun w =>
  match outcome with
  | .thrown => .error .failed w
  | .count 0 => .ok (0, account) w
  | .count (rows + 1) =>
    if violates w.database account then .error .duplicateKey w
    else
      .ok (rows + 1, { account with id := some w.outside })
        { database := { w.database with info := w.database.info ++ [infoRow w.outside account] }
          outside := w.outside + 1 }

/-- `AccountMapper.createAccountPasswd`; a null id is refused by the column. -/
def createAccountPasswd (outcome : Insert) (account : Account) : Service Nat := fun w =>
  match outcome with
  | .thrown => .error .failed w
  | .count 0 => .ok 0 w
  | .count (rows + 1) =>
    account.id.elim (.error .failed w) fun id =>
      if id ∈ w.database.passwd.map Passwd.id then .error .duplicateKey w
      else
        .ok (rows + 1)
          { w with
            database :=
              { w.database with passwd := w.database.passwd ++ [⟨id, account.password⟩] } }

/-- A call: its argument, and the results of the two inserts. -/
structure Op where
  account : Account
  info : Insert
  passwd : Insert
  deriving DecidableEq, Repr

/-- The body of `AccountService.CreateAccount`. -/
def createAccountBody (op : Op) : Service (Option Account) := do
  let created ← createAccountInfo op.info op.account
  if created.1 ≤ 0 then pure none
  else do
    let ret ← createAccountPasswd op.passwd created.2
    if ret ≤ 0 then pure none
    else pure (some created.2)

/-- `AccountService.CreateAccount`, which is `@Transactional`. -/
def createAccount (op : Op) : Service (Option Account) :=
  transactional none (createAccountBody op)

/-- The state after a call, whether it has returned or thrown. -/
def step (w : State) (op : Op) : Except Fault State :=
  .ok (left (createAccount op w))

/-- Both tables have the same account ids. -/
def SameIds (database : Database) : Prop :=
  ∀ id, id ∈ database.info.map Info.id ↔ id ∈ database.passwd.map Passwd.id

/-- The call returns an account. -/
def returnsAccount (op : Op) (w : State) : Prop :=
  ∃ account w', createAccount op w = .ok (some account) w'

/-- Both tables have the same ids after the call, and a call that returns null or throws leaves
them as they were. -/
def AllOrNothing (w : State) (op : Op) : Prop :=
  SameIds (left (createAccount op w)).database ∧
    (¬ returnsAccount op w → (left (createAccount op w)).database = w.database)

/-- The first insert makes a row, and the second one reports no row instead of throwing. -/
def Halfway (w : State) (op : Op) : Prop :=
  op.info ≠ .thrown ∧ op.info ≠ .count 0 ∧ violates w.database op.account = false ∧
    op.passwd = .count 0

instance (w : State) (op : Op) : Decidable (Halfway w op) :=
  inferInstanceAs (Decidable (_ ∧ _))

/-- The state with the row of the first insert. -/
def withInfo (w : State) (op : Op) : State where
  database := { w.database with info := w.database.info ++ [infoRow w.outside op.account] }
  outside := w.outside + 1

/-- The state with the rows of both inserts. -/
def withBoth (w : State) (op : Op) : State where
  database :=
    { info := w.database.info ++ [infoRow w.outside op.account]
      passwd := w.database.passwd ++ [⟨w.outside, op.account.password⟩] }
  outside := w.outside + 1

/-- What a call can come to. -/
inductive Called (w : State) (op : Op) :
    EStateM.Result MapperException State (Option Account) → Prop where
  | thrown {e : MapperException} {next : Int} : ¬ Halfway w op → w.outside ≤ next →
      Called w op (.error e ⟨w.database, next⟩)
  | nothing : ¬ Halfway w op → Called w op (.ok none w)
  | half : Halfway w op → Called w op (.ok none (withInfo w op))
  | both {account : Account} : ¬ Halfway w op → Called w op (.ok (some account) (withBoth w op))

section Calls

variable {w w' : State} {op : Op}

theorem createAccount_of_error {e : MapperException} (h : createAccountBody op w = .error e w') :
    createAccount op w = .error e ⟨w.database, w'.outside⟩ :=
  transactional_of_error h

theorem createAccount_of_ok {result : Option Account} (h : createAccountBody op w = .ok result w') :
    createAccount op w = .ok result w' :=
  transactional_of_ok h

theorem createAccountInfo_eq_ok {rows : Nat} (hinfo : op.info = .count (rows + 1))
    (hviolates : violates w.database op.account = false) :
    createAccountInfo op.info op.account w =
      .ok (rows + 1, { op.account with id := some w.outside }) (withInfo w op) := by
  rw [hinfo]
  exact if_neg (Bool.eq_false_iff.mp hviolates)

theorem createAccountPasswd_eq {more : Nat} (hpasswd : op.passwd = .count (more + 1)) :
    createAccountPasswd op.passwd { op.account with id := some w.outside } (withInfo w op) =
      if w.outside ∈ w.database.passwd.map Passwd.id then .error .duplicateKey (withInfo w op)
      else .ok (more + 1) (withBoth w op) := by
  rw [hpasswd]
  rfl

theorem createAccountBody_eq {rows : Nat} (hinfo : op.info = .count (rows + 1))
    (hviolates : violates w.database op.account = false) :
    createAccountBody op w =
      (createAccountPasswd op.passwd { op.account with id := some w.outside } >>= fun ret =>
        if ret ≤ 0 then pure none else pure (some { op.account with id := some w.outside }))
        (withInfo w op) :=
  bind_of_ok (createAccountInfo_eq_ok hinfo hviolates)

/-- The result of a call whose first insert makes a row, by the result of the second one. -/
theorem called_of_info {rows : Nat} (hinfo : op.info = .count (rows + 1))
    (hviolates : violates w.database op.account = false) : Called w op (createAccount op w) := by
  have hbody := createAccountBody_eq hinfo hviolates
  have hnext : w.outside ≤ w.outside + 1 := Int.le_add_one (Int.le_refl _)
  cases hpasswd : op.passwd with
  | thrown =>
    rw [hpasswd] at hbody
    rw [createAccount_of_error (hbody.trans (bind_of_error rfl))]
    exact .thrown (fun h => nomatch hpasswd.symm.trans h.2.2.2) hnext
  | count more =>
    cases more with
    | zero =>
      rw [hpasswd] at hbody
      rw [createAccount_of_ok (hbody.trans (bind_of_ok rfl))]
      exact .half ⟨by rw [hinfo]; nofun, by rw [hinfo]; nofun, hviolates, hpasswd⟩
    | succ more =>
      have hno : ¬ Halfway w op := fun h => nomatch hpasswd.symm.trans h.2.2.2
      have hinsert := createAccountPasswd_eq (w := w) hpasswd
      split at hinsert
      · rw [createAccount_of_error (hbody.trans (bind_of_error hinsert))]
        exact .thrown hno hnext
      · rw [createAccount_of_ok (hbody.trans (bind_of_ok hinsert))]
        exact .both hno

theorem called (w : State) (op : Op) : Called w op (createAccount op w) := by
  cases hinfo : op.info with
  | thrown =>
    have hthrown : createAccountInfo op.info op.account w = .error .failed w := by
      rw [hinfo]
      rfl
    rw [createAccount_of_error (bind_of_error hthrown)]
    exact .thrown (fun h => h.1 hinfo) (Int.le_refl _)
  | count rows =>
    cases rows with
    | zero =>
      have hnone : createAccountInfo op.info op.account w = .ok (0, op.account) w := by
        rw [hinfo]
        rfl
      rw [createAccount_of_ok (bind_of_ok hnone)]
      exact .nothing fun h => h.2.1 hinfo
    | succ rows =>
      cases hviolates : violates w.database op.account with
      | true =>
        have hthrown : createAccountInfo op.info op.account w = .error .duplicateKey w := by
          rw [hinfo]
          exact if_pos hviolates
        rw [createAccount_of_error (bind_of_error hthrown)]
        exact .thrown (fun h => nomatch hviolates.symm.trans h.2.2.1) (Int.le_refl _)
      | false => exact called_of_info hinfo hviolates

end Calls

/-- The ids are the same, and below the next one. -/
structure Agrees (w : State) : Prop where
  same : SameIds w.database
  fresh : ∀ id ∈ w.database.info.map Info.id, id < w.outside

theorem SameIds.withBoth {w : State} (h : SameIds w.database) (op : Op) :
    SameIds (withBoth w op).database := by
  intro id
  simp only [AccountService.withBoth, List.map_append, List.mem_append]
  exact or_congr (h id) Iff.rfl

theorem Agrees.withInfo {w : State} (h : Agrees w) (op : Op) :
    ¬ SameIds (withInfo w op).database := by
  intro hsame
  have hnew : w.outside ∈ (AccountService.withInfo w op).database.info.map Info.id := by
    simp [AccountService.withInfo, infoRow]
  have hold : w.outside ∈ w.database.info.map Info.id := (h.same _).mpr ((hsame _).mp hnew)
  exact Int.lt_irrefl _ (h.fresh _ hold)

/-- A call is all or nothing exactly if it does not stop halfway. -/
theorem Agrees.allOrNothing_iff {w : State} (h : Agrees w) (op : Op) :
    AllOrNothing w op ↔ ¬ Halfway w op := by
  have hcalled := called w op
  unfold AllOrNothing returnsAccount
  generalize createAccount op w = result at hcalled
  cases hcalled with
  | thrown hhalf _ => exact ⟨fun _ => hhalf, fun _ => ⟨h.same, fun _ => rfl⟩⟩
  | nothing hhalf => exact ⟨fun _ => hhalf, fun _ => ⟨h.same, fun _ => rfl⟩⟩
  | half hhalf => exact ⟨fun hall => absurd hall.1 (h.withInfo op), fun hno => absurd hhalf hno⟩
  | both hhalf =>
    refine ⟨fun _ => hhalf, fun _ => ⟨h.same.withBoth op, fun hnull => ?_⟩⟩
    exact absurd ⟨_, _, rfl⟩ hnull

/-- A call that does not stop halfway leaves the ids in agreement. -/
theorem Agrees.step {w w' : State} {op : Op} (h : Agrees w) (hstep : step w op = .ok w')
    (hhalf : ¬ Halfway w op) : Agrees w' := by
  have hsame := ((h.allOrNothing_iff op).mpr hhalf).1
  have hcalled := called w op
  unfold AccountService.step at hstep
  generalize createAccount op w = result at hcalled hstep hsame
  cases hstep
  refine ⟨hsame, ?_⟩
  cases hcalled with
  | thrown _ hnext => exact fun id hid => Int.lt_of_lt_of_le (h.fresh id hid) hnext
  | nothing _ => exact h.fresh
  | half hyes => exact absurd hyes hhalf
  | both _ =>
    intro id hid
    simp only [left, withBoth, List.map_append, List.mem_append] at hid
    show id < w.outside + 1
    rcases hid with hold | hnew
    · exact Int.lt_add_one_of_le (Int.le_of_lt (h.fresh id hold))
    · rw [List.map_singleton, List.mem_singleton] at hnew
      subst hnew
      exact Int.lt_add_one_of_le (Int.le_refl _)

theorem agrees_init : Agrees State.init :=
  ⟨fun _ => Iff.rfl, fun _ h => absurd h List.not_mem_nil⟩

/-- Every call of a history is all or nothing exactly if none of them stops halfway. -/
theorem allOrNothing_iff_along (ops : List Op) :
    Along step AllOrNothing State.init ops ↔
      Along step (fun w op => ¬ Halfway w op) State.init ops :=
  along_congr_of_kept (fun _ op h => h.allOrNothing_iff op)
    (fun _ op _ h hstep hall => h.step hstep ((h.allOrNothing_iff op).mp hall)) agrees_init

/-- A call whose second insert reports no row. -/
def halfCall : Op where
  account := ⟨none, some "muggle", none, none, some "secret"⟩
  info := .count 1
  passwd := .count 0

/-- It returns null, and leaves an account without a password. -/
theorem halfCall_not_allOrNothing :
    createAccount halfCall State.init = .ok none (withInfo State.init halfCall) ∧
    ¬ Along step AllOrNothing State.init [halfCall] := by
  refine ⟨rfl, fun h => ?_⟩
  exact ((agrees_init.allOrNothing_iff halfCall).mp h.1) (by decide)

end AccountService

end HakunaMatata.MybatisRedis
