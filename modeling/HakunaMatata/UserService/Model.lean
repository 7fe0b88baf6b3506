import HakunaMatata.Base.JavaBytes
import HakunaMatata.Base.Transaction

/-!
# The user service, `UserService.java`

A user has a row in `t_user` and one in `t_authority`. The mappers' statements are functions on the
two tables, as their SQL says; a statement may also throw or report a wrong number of rows, before
or after the database has executed it. `addUser` and `delUser` are transactions, the updates are
not. Two strings are equal if they have the same characters.
-/

namespace HakunaMatata.UserService

open Base Java

/-- `User`. -/
structure User where
  id : Option Int
  name : Option String
  password : Option String
  status : Option Int
  deriving DecidableEq, Repr

/-- `Authority`. -/
structure Authority where
  userId : Option Int
  numTasks : Option Int
  deriving DecidableEq, Repr

/-- A row of `t_user`. -/
structure UserRow where
  id : Int
  name : String
  password : String
  status : Int
  deriving DecidableEq, Repr

/-- A row of `t_authority`. -/
structure AuthorityRow where
  userId : Int
  numTasks : Int
  deriving DecidableEq, Repr

/-- The two tables. -/
structure Database where
  users : List UserRow
  authorities : List AuthorityRow
  deriving DecidableEq, Repr

/-- The database, and the next value of `AUTO_INCREMENT`, which no transaction takes back. -/
abbrev State := World Database Int

/-- Empty tables. -/
def State.init : State := ⟨⟨[], []⟩, 10001⟩

/-- Exceptions: those of the service with their message, and those of the mappers. -/
inductive Exn where
  | runtime (message : String)
  | indexOutOfBounds
  | notNull
  | duplicateKey
  | badSql
  | mapper
  deriving DecidableEq, Repr

/-- A method of the service or of a mapper. -/
abbrev Service := Procedure Exn Database Int

/-! ## Statements -/

/-- What a statement does: the number of rows, and the state. -/
structure Effect where
  rows : Nat
  state : State
  deriving DecidableEq, Repr

/-- How a statement goes: as its SQL says, or it reports a wrong number of rows or throws, after
the database has executed it or without that. -/
inductive Outcome where
  | normal
  | wrongCount (rows : Nat) (hrows : rows ≠ 1) (applied : Bool)
  | thrown (applied : Bool)
  deriving DecidableEq, Repr

/-- The state after a statement whose report was lost. -/
def applied (sql : State → Except Exn Effect) (w : State) : State :=
  match sql w with
  | .ok effect => effect.state
  | .error _ => w

/-- Execute a statement. -/
def execute (outcome : Outcome) (sql : State → Except Exn Effect) : Service Nat := fun w =>
  match outcome with
  | .normal =>
    match sql w with
    | .ok effect => .ok effect.rows effect.state
    | .error e => .error e w
  | .wrongCount rows _ done => .ok rows (if done then applied sql w else w)
  | .thrown done => .error .mapper (if done then applied sql w else w)

/-- The choice of the `where` clause: by id, or else by name, or else no row. -/
def User.selects (user : User) (row : UserRow) : Bool :=
  user.id.elim (user.name.elim false fun name => row.name = name) fun id => row.id = id

/-- `insert into t_user (name, password)`. -/
def insertUser (user : User) (w : State) : Except Exn Effect :=
  user.name.elim (.error .notNull) fun name =>
    user.password.elim (.error .notNull) fun password =>
      if name ∈ w.database.users.map UserRow.name then .error .duplicateKey
      else
        .ok
          { rows := 1
            state :=
              { database :=
                  { w.database with
                    users := w.database.users ++ [⟨w.outside, name, password, 0⟩] }
                outside := w.outside + 1 } }

/-- `delete from t_user`. -/
def deleteUser (user : User) (w : State) : Except Exn Effect :=
  .ok
    { rows := w.database.users.countP user.selects
      state :=
        { w with
          database :=
            { w.database with users := w.database.users.filter fun row => !user.selects row } } }

/-- Change the rows that a `where` clause selects, if the names stay unique. -/
def updateUsers (user : User) (change : UserRow → UserRow) (w : State) : Except Exn Effect :=
  let users := w.database.users.map fun row => if user.selects row then change row else row
  if (users.map UserRow.name).Nodup then
    .ok
      { rows := w.database.users.countP user.selects
        state := { w with database := { w.database with users := users } } }
  else .error .duplicateKey

/-- `update t_user`: without a column to set, the statement is not SQL. -/
def updateUserRow (user newUser : User) (w : State) : Except Exn Effect :=
  if newUser.name = none ∧ newUser.status = none then .error .badSql
  else
    updateUsers user (fun row =>
      { row with name := newUser.name.getD row.name, status := newUser.status.getD row.status }) w

/-- `update t_user set password`. -/
def updatePasswordRow (user : User) (w : State) : Except Exn Effect :=
  user.password.elim (.error .notNull) fun password =>
    updateUsers user (fun row => { row with password := password }) w

/-- `insert into t_authority`. -/
def insertAuthority (authority : Authority) (w : State) : Except Exn Effect :=
  authority.userId.elim (.error .notNull) fun userId =>
    authority.numTasks.elim (.error .notNull) fun numTasks =>
      if userId ∈ w.database.authorities.map AuthorityRow.userId then .error .duplicateKey
      else
        .ok
          { rows := 1
            state :=
              { w with
                database :=
                  { w.database with
                    authorities := w.database.authorities ++ [⟨userId, numTasks⟩] } } }

/-- `where user_id=`, which selects nothing for a null value. -/
def ofUser (userId : Option Int) (row : AuthorityRow) : Bool :=
  userId = some row.userId

/-- `delete from t_authority`. -/
def deleteAuthority (userId : Option Int) (w : State) : Except Exn Effect :=
  .ok
    { rows := w.database.authorities.countP (ofUser userId)
      state :=
        { w with
          database :=
            { w.database with
              authorities := w.database.authorities.filter fun row => !ofUser userId row } } }

/-- `update t_authority`: without a column to set, the statement is not SQL. -/
def updateAuthorityRow (authority : Authority) (w : State) : Except Exn Effect :=
  authority.numTasks.elim (.error .badSql) fun numTasks =>
    .ok
      { rows := w.database.authorities.countP (ofUser authority.userId)
        state :=
          { w with
            database :=
              { w.database with
                authorities := w.database.authorities.map fun row =>
                  if ofUser authority.userId row then { row with numTasks := numTasks }
                  else row } } }

/-! ## Mappers -/

/-- How a query goes: as its SQL says, or it gives a wrong number of rows or throws. -/
inductive QueryOutcome where
  | normal
  | wrongCount (users : List User) (hrows : users.length ≠ 1)
  | thrown
  deriving DecidableEq, Repr

/-- The columns that `queryUser` selects. -/
def UserRow.queried (row : UserRow) : User :=
  ⟨some row.id, some row.name, none, some row.status⟩

/-- `UserMapper.queryUser`. -/
def queryUser (outcome : QueryOutcome) (user : User) : Service (List User) := fun w =>
  match outcome with
  | .normal => .ok ((w.database.users.filter user.selects).map UserRow.queried) w
  | .wrongCount users _ => .ok users w
  | .thrown => .error .mapper w

/-- `UserMapper.addUser`: the number of rows, and the user with the generated id. -/
def addUserRow (outcome : Outcome) (user : User) : Service (Nat × User) := do
  let w ← get
  let rows ← execute outcome (insertUser user)
  pure (rows, { user with id := some w.outside })

/-! ## Service -/

/-- `ErrorIdUtils.ok`. -/
def ok : Int := 0

/-- `ErrorIdUtils.errIdInvalidUser`. -/
def errIdInvalidUser : Int := 1001

/-- `ErrorIdUtils.errIdPasswordLen`. -/
def errIdPasswordLen : Int := 1002

/-- The check of a name that is given. -/
def badName (name : String) : Bool :=
  length16 name > 32 || length16 name = 0

/-- The check of a password; a null one fails it. -/
def badPassword (password : Option String) : Bool :=
  password.elim true fun text => length16 text > 32 || length16 text < 8

/-- The text of an id in a message. -/
def idText (id : Option Int) : String :=
  id.elim "null" toString

/-- The inserts of `addUser`. -/
def addRows (user : User) (first second : Outcome) : Service Int := do
  let added ← addUserRow first user
  if added.1 ≠ 1 then throw (.runtime "failed add user")
  else do
    let addCnt ← execute second (insertAuthority ⟨added.2.id, some 1⟩)
    if addCnt ≠ 1 then throw (.runtime "failed add authority") else pure ok

/-- The body of `UserService.addUser`; `hashed` is the result of `bcryptHash`, or none if the hash
algorithm does not exist. -/
def addUserBody (user : User) (hashed : Option String) (first second : Outcome) : Service Int :=
  if user.name.elim true badName then pure errIdInvalidUser
  else if badPassword user.password then pure errIdPasswordLen
  else hashed.elim (pure (-1)) fun text =>
    addRows { user with password := some text } first second

/-- `UserService.addUser`. -/
def addUser (user : User) (hashed : Option String) (first second : Outcome) : Service Int :=
  transactional none (addUserBody user hashed first second)

/-- `userList.get(0)`. -/
def getFirst (users : List User) : Service User :=
  users.head?.elim (throw .indexOutOfBounds) pure

/-- The deletions of `delUser`. -/
def deleteRows (user : User) (first second : Outcome) : Service Int := do
  let delCnt ← execute first (deleteUser user)
  if delCnt ≠ 1 then throw (.runtime ("failed delete user " ++ idText user.id))
  else do
    let delCnt ← execute second (deleteAuthority user.id)
    if delCnt ≠ 1 then throw (.runtime ("failed delete authority " ++ idText user.id)) else pure ok

/-- The body of `UserService.delUser`. -/
def delUserBody (user : User) (query : QueryOutcome) (first second : Outcome) : Service Int := do
  let userList ← queryUser query user
  if userList.length ≠ 1 then pure errIdInvalidUser
  else do
    let found ← getFirst userList
    deleteRows found first second

/-- `UserService.delUser`. -/
def delUser (user : User) (query : QueryOutcome) (first second : Outcome) : Service Int :=
  transactional none (delUserBody user query first second)

/-- One row was updated, or the result is `-1`. -/
def oneUpdated (outcome : Outcome) (sql : State → Except Exn Effect) : Service Int := do
  let updateCnt ← execute outcome sql
  if updateCnt ≠ 1 then pure (-1) else pure ok

/-- `UserService.updateUser`. -/
def updateUser (user newUser : User) (outcome : Outcome) : Service Int :=
  if newUser.name.any badName then pure errIdInvalidUser
  else tryCatch (oneUpdated outcome (updateUserRow user newUser)) fun _ => pure (-1)

/-- `UserService.updatePassword`. -/
def updatePassword (user : User) (password hashed : Option String) (outcome : Outcome) :
    Service Int :=
  if badPassword password then pure errIdPasswordLen
  else hashed.elim (pure (-1)) fun text =>
    oneUpdated outcome (updatePasswordRow { user with password := some text })

/-- `UserService.updateAuthority`. -/
def updateAuthority (authority : Authority) (outcome : Outcome) : Service Int :=
  if authority.userId = none then pure errIdInvalidUser
  else tryCatch (oneUpdated outcome (updateAuthorityRow authority)) fun _ => pure (-1)

/-- A call of the service, with how its statements go. -/
inductive Op where
  | addUser (user : User) (hashed : Option String) (first second : Outcome)
  | delUser (user : User) (query : QueryOutcome) (first second : Outcome)
  | updateUser (user newUser : User) (outcome : Outcome)
  | updatePassword (user : User) (password hashed : Option String) (outcome : Outcome)
  | updateAuthority (authority : Authority) (outcome : Outcome)
  deriving DecidableEq, Repr

/-- The call. -/
def Op.call : Op → Service Int
  | .addUser user hashed first second => UserService.addUser user hashed first second
  | .delUser user query first second => UserService.delUser user query first second
  | .updateUser user newUser outcome => UserService.updateUser user newUser outcome
  | .updatePassword user password hashed outcome =>
    UserService.updatePassword user password hashed outcome
  | .updateAuthority authority outcome => UserService.updateAuthority authority outcome

/-- The state after a call, whether it has returned or thrown. -/
def step (w : State) (op : Op) : Except Fault State :=
  .ok (left (op.call w))

end HakunaMatata.UserService
