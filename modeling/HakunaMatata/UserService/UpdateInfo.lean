import HakunaMatata.UserService.Model

/-!
# `/update/info`, `UserController.updateUserInfo`

The handler looks the user up, updates `t_user` and then, if a task count is given, `t_authority`.
The two updates are separate statements outside of a transaction. The answer is that of the first
one: without a column to set it is not SQL, and what becomes of the second one is not looked at.
`updateUserInfo_found` and `updateUserInfo_missed` are the closed form of the handler, for every
outcome of its statements.
-/

namespace HakunaMatata.UserService

open Base

/-! ## The handler -/

/-- `UserUpdateModel`. -/
structure UserUpdateModel where
  id : Option Int
  name : Option String
  newName : Option String
  newStatus : Option String
  newNumTasks : Option Int
  deriving DecidableEq, Repr

/-- `UserStatusUtils.intStatus`. -/
def intStatus (status : Option String) : Option Int :=
  if status = some "normal" then some 0
  else if status = some "freeze" then some 1
  else none

/-- `ErrorIdUtils.errIdNotFound`. -/
def errIdNotFound : Int := 1

/-- `ErrorIdUtils.errIdInvalidParam`. -/
def errIdInvalidParam : Int := 2

/-- `ErrorIdUtils.errIdDuplicateName`. -/
def errIdDuplicateName : Int := 1005

/-- `ErrorIdUtils.endErrId`. -/
def endErrId : Int := 10000

/-- `ErrorIdUtils.errMessages`. -/
def errMessages : List (Int × String) :=
  [(ok, ""), (errIdNotFound, "not found"), (errIdInvalidParam, "invalid parameter"),
    (errIdInvalidUser, "invalid user name"), (errIdPasswordLen, "invalid password length"),
    (1003, "user name already exists"), (1004, "user password error"),
    (errIdDuplicateName, "duplicated user name")]

/-- `ErrorIdUtils.getErrorMessage`. -/
def getErrorMessage (errId : Int) : String :=
  if errId < 0 ∨ endErrId ≤ errId then "unknown error"
  else (errMessages.lookup errId).getD "unknown error"

/-- The map that the handler returns. -/
structure Response where
  errorId : Int
  errorMsg : String
  data : UserUpdateModel
  deriving DecidableEq, Repr

/-- `ReturnMsgUtils.success`. -/
def success (data : UserUpdateModel) : Response :=
  ⟨0, "", data⟩

/-- `ReturnMsgUtils.failedMap`. -/
def failedMap (data : UserUpdateModel) (errId : Int) : Response :=
  ⟨errId, getErrorMessage errId, data⟩

/-- `UserService.queryUser`. -/
def serviceQueryUser (query : QueryOutcome) (user : User) : Service (Option User) := do
  let userList ← queryUser query user
  if userList.length ≠ 1 then pure none else pure userList.head?

/-- The user that is looked for. -/
def UserUpdateModel.user (request : UserUpdateModel) : User :=
  ⟨request.id, request.name, none, none⟩

/-- The columns to set. -/
def UserUpdateModel.userInfo (request : UserUpdateModel) : User :=
  ⟨none, request.newName, none, intStatus request.newStatus⟩

/-- The updates, once the user is found. -/
def updateFound (request : UserUpdateModel) (rspUser : User) (first second : Outcome) :
    Service Response := do
  let ret ← tryCatch
    (updateUser ⟨rspUser.id, rspUser.name, none, none⟩ request.userInfo first)
    fun _ => pure errIdDuplicateName
  -- what this returns is ignored
  let _ ← request.newNumTasks.elim (pure ok) fun numTasks =>
    updateAuthority ⟨rspUser.id, some numTasks⟩ second
  if ret = ok then pure (success request) else pure (failedMap request ret)

/-- `UserController.updateUserInfo`. -/
def updateUserInfo (request : UserUpdateModel) (query : QueryOutcome) (first second : Outcome) :
    Service Response :=
  if request.id = none ∧ request.name = none then pure (failedMap request errIdInvalidParam)
  else do
    let rspUser ← serviceQueryUser query request.user
    rspUser.elim (pure (failedMap request errIdNotFound)) fun rspUser =>
      updateFound request rspUser first second

/-! ## What the answer should say -/

/-- The database says about the user with an id what the request asks for. A status that is
neither of the two is one that no user has. -/
structure Granted (request : UserUpdateModel) (id : Int) (database : Database) : Prop where
  user : ∃ row ∈ database.users, row.id = id ∧ (∀ name ∈ request.newName, row.name = name) ∧
    ∀ status ∈ request.newStatus, intStatus (some status) = some row.status
  authority : ∀ numTasks ∈ request.newNumTasks, ∃ row ∈ database.authorities,
    row.userId = id ∧ row.numTasks = numTasks

/-- Every requested change has been made to the one user that the request named. -/
def EveryChangeApplied (request : UserUpdateModel) (w w' : State) : Prop :=
  ∃ row, w.database.users.filter request.user.selects = [row] ∧
    Granted request row.id w'.database

/-- The answer is a success. An exception is none. -/
def Succeeds (result : EStateM.Result Exn State Response) : Prop :=
  ∃ response w', result = .ok response w' ∧ response.errorId = ok

/-- The answer is a success exactly if every requested change has been applied, and a failure
has changed nothing. A new task count alone is granted if no statement fails. -/
structure Truthful (request : UserUpdateModel) (query : QueryOutcome) (first second : Outcome)
    (w : State) : Prop where
  success_iff : Succeeds (updateUserInfo request query first second w) ↔
    EveryChangeApplied request w (left (updateUserInfo request query first second w))
  failure : ¬ Succeeds (updateUserInfo request query first second w) →
    (left (updateUserInfo request query first second w)).database = w.database
  taskCount : request.newName = none → request.newStatus = none → request.newNumTasks ≠ none →
    query = .normal → first = .normal → second = .normal →
    (∃ row, w.database.users.filter request.user.selects = [row] ∧
      row.id ∈ w.database.authorities.map AuthorityRow.userId) →
    Succeeds (updateUserInfo request query first second w)

/-! ## Statements whose exceptions are caught -/

/-- The database has executed the statement. -/
def Outcome.executed : Outcome → Bool
  | .normal => true
  | .wrongCount _ _ done => done
  | .thrown done => done

/-- The state that a statement leaves. -/
def ran (outcome : Outcome) (sql : State → Except Exn Effect) (w : State) : State :=
  if outcome.executed then applied sql w else w

section Statements

variable {outcome : Outcome} {sql : State → Except Exn Effect} {w w' : State}

theorem ran_of_ok {rows : Nat} (h : outcome.executed = true) (hsql : sql w = .ok ⟨rows, w'⟩) :
    ran outcome sql w = w' := by
  rw [ran, if_pos h, applied, hsql]

theorem ran_of_not (h : outcome.executed = false) : ran outcome sql w = w := by
  rw [ran, h]
  rfl

theorem ran_of_error {e : Exn} (hsql : sql w = .error e) : ran outcome sql w = w := by
  rw [ran, applied, hsql, ite_self]

/-- The update is reported if its statement goes as the SQL says and changes one row. -/
theorem caught_eq (outcome : Outcome) (sql : State → Except Exn Effect) (w : State) :
    ∃ ret, (tryCatch (oneUpdated outcome sql) fun _ => pure (-1) : Service Int) w =
        .ok ret (ran outcome sql w) ∧
      (ret = ok ↔ outcome = .normal ∧ ∃ w', sql w = .ok ⟨1, w'⟩) := by
  show ∃ ret, EStateM.tryCatch (oneUpdated outcome sql) (fun _ => pure (-1)) w = _ ∧ _
  cases outcome with
  | normal =>
    cases hsql : sql w with
    | ok effect =>
      obtain ⟨rows, w'⟩ := effect
      have hexecute : execute .normal sql w = .ok rows w' := by
        simp only [execute, hsql]
      rw [ran_of_ok rfl hsql, EStateM.tryCatch, oneUpdated, bind_of_ok hexecute]
      by_cases hrows : rows = 1
      · subst hrows
        exact ⟨ok, rfl, fun _ => ⟨rfl, w', rfl⟩, fun _ => rfl⟩
      · rw [if_pos hrows]
        refine ⟨-1, rfl, nofun, ?_⟩
        rintro ⟨_, w'', heq⟩
        cases heq
        exact absurd rfl hrows
    | error e =>
      have hexecute : execute .normal sql w = .error e w := by
        simp only [execute, hsql]
      rw [ran_of_error hsql, EStateM.tryCatch, oneUpdated, bind_of_error hexecute]
      exact ⟨-1, rfl, nofun, fun h => nomatch h.2⟩
  | wrongCount rows hrows done =>
    have hexecute : execute (.wrongCount rows hrows done) sql w =
      .ok rows (ran (.wrongCount rows hrows done) sql w) := rfl
    rw [EStateM.tryCatch, oneUpdated, bind_of_ok hexecute, if_pos hrows]
    exact ⟨-1, rfl, nofun, fun h => nomatch h.1⟩
  | thrown done =>
    have hexecute : execute (.thrown done) sql w =
      .error .mapper (ran (.thrown done) sql w) := rfl
    rw [EStateM.tryCatch, oneUpdated, bind_of_error hexecute]
    exact ⟨-1, rfl, nofun, fun h => nomatch h.1⟩

end Statements

/-! ## The user -/

/-- The row of the user that the handler works on. -/
def found (request : UserUpdateModel) (query : QueryOutcome) (w : State) : Option UserRow :=
  match query, w.database.users.filter request.user.selects with
  | .normal, [row] => some row
  | _, _ => none

/-- The update of `t_user` is one that the service and the database accept: a name that is given
is of the right length and no other user has it, and there is a column to set. -/
structure Accepts (request : UserUpdateModel) (row : UserRow) (database : Database) : Prop where
  good : ∀ name ∈ request.newName, badName name = false
  free : ∀ name ∈ request.newName, ∀ other ∈ database.users, other.name = name →
    other.id = row.id
  columns : request.newName ≠ none ∨ intStatus request.newStatus ≠ none

/-- The row with the new columns. -/
def UserUpdateModel.change (request : UserUpdateModel) (row : UserRow) : UserRow :=
  { row with
    name := request.newName.getD row.name
    status := (intStatus request.newStatus).getD row.status }

/-- `t_user` with the new columns of one user. -/
def changeUser (request : UserUpdateModel) (id : Int) (w : State) : State :=
  { w with
    database :=
      { w.database with
        users := w.database.users.map fun row => if row.id = id then request.change row else row } }

/-- `t_authority` with the new task count of one user. -/
def changeTasks (numTasks id : Int) (w : State) : State :=
  { w with
    database :=
      { w.database with
        authorities := w.database.authorities.map fun row =>
          if row.userId = id then { row with numTasks := numTasks } else row } }

/-- The user that the updates are for. -/
abbrev UserRow.user (row : UserRow) : User :=
  ⟨some row.id, some row.name, none, none⟩

/-- The state behind the update of `t_user`. -/
def afterUser (request : UserUpdateModel) (first : Outcome) (row : UserRow) (w : State) : State :=
  if request.newName.any badName then w
  else ran first (updateUserRow row.user request.userInfo) w

/-- The state behind the update of `t_authority`. -/
def afterTasks (request : UserUpdateModel) (second : Outcome) (row : UserRow) (w : State) :
    State :=
  request.newNumTasks.elim w fun numTasks =>
    ran second (updateAuthorityRow ⟨some row.id, some numTasks⟩) w

section User

variable {request : UserUpdateModel} {query : QueryOutcome} {row : UserRow} {w : State}

theorem found_eq_some (h : found request query w = some row) :
    query = .normal ∧ w.database.users.filter request.user.selects = [row] := by
  unfold found at h
  split at h
  · rename_i heq
    cases h
    exact ⟨rfl, heq⟩
  · cases h

theorem found_of_filter (h : w.database.users.filter request.user.selects = [row]) :
    found request .normal w = some row := by
  unfold found
  rw [h]

theorem mem_of_filter (h : w.database.users.filter request.user.selects = [row]) :
    row ∈ w.database.users :=
  List.mem_of_mem_filter (h ▸ List.mem_singleton_self row)

/-- A request without id and name names no user. -/
theorem id_or_name_of_filter (h : w.database.users.filter request.user.selects = [row]) :
    ¬ (request.id = none ∧ request.name = none) := by
  rintro ⟨hid, hname⟩
  have hselects : request.user.selects row = true :=
    (List.mem_filter.mp (h ▸ List.mem_singleton_self row)).2
  rw [User.selects, UserUpdateModel.user, hid, hname] at hselects
  cases hselects

/-! ## The closed form of the handler -/

/-- The update of `t_user` is reported if it is one that the database accepts for one row. -/
theorem updateUser_eq (request : UserUpdateModel) (first : Outcome) (row : UserRow) (w : State) :
    ∃ ret, updateUser row.user request.userInfo first w =
        .ok ret (afterUser request first row w) ∧
      (ret = ok ↔ request.newName.any badName = false ∧ first = .normal ∧
        ∃ w', updateUserRow row.user request.userInfo w = .ok ⟨1, w'⟩) := by
  have hname : request.userInfo.name.any badName = request.newName.any badName := rfl
  rw [updateUser, afterUser, hname]
  cases hbad : request.newName.any badName with
  | true =>
    rw [if_pos rfl, if_pos rfl]
    exact ⟨errIdInvalidUser, rfl, nofun, fun h => nomatch h.1⟩
  | false =>
    rw [if_neg Bool.false_ne_true, if_neg Bool.false_ne_true]
    obtain ⟨ret, hrun, hret⟩ := caught_eq first (updateUserRow row.user request.userInfo) w
    exact ⟨ret, hrun, hret.trans ⟨fun h => ⟨rfl, h⟩, fun h => h.2⟩⟩

/-- The update of `t_authority` always returns, and its result is not looked at. -/
theorem updateTasks_eq (request : UserUpdateModel) (second : Outcome) (row : UserRow)
    (w : State) :
    ∃ ret, (request.newNumTasks.elim (pure ok) fun numTasks =>
      updateAuthority ⟨some row.id, some numTasks⟩ second : Service Int) w =
        .ok ret (afterTasks request second row w) := by
  unfold afterTasks
  cases request.newNumTasks with
  | none => exact ⟨ok, rfl⟩
  | some numTasks =>
    obtain ⟨ret, hrun, -⟩ :=
      caught_eq second (updateAuthorityRow ⟨some row.id, some numTasks⟩) w
    exact ⟨ret, hrun⟩

/-- The user is found: both updates are made, and the answer is that of the first one. -/
theorem updateUserInfo_found (first second : Outcome) (h : found request query w = some row) :
    ∃ response, updateUserInfo request query first second w =
        .ok response (afterTasks request second row (afterUser request first row w)) ∧
      (response.errorId = ok ↔ request.newName.any badName = false ∧ first = .normal ∧
        ∃ w', updateUserRow row.user request.userInfo w = .ok ⟨1, w'⟩) := by
  obtain ⟨rfl, hfilter⟩ := found_eq_some h
  have hmapper : queryUser .normal request.user w = .ok [row.queried] w := by
    simp only [queryUser, hfilter, List.map_cons, List.map_nil]
  have hquery : serviceQueryUser .normal request.user w = .ok (some row.queried) w := by
    rw [serviceQueryUser, bind_of_ok hmapper]
    rfl
  obtain ⟨ret, huser, hret⟩ := updateUser_eq request first row w
  obtain ⟨ret', htasks⟩ := updateTasks_eq request second row (afterUser request first row w)
  have hcaught : (tryCatch (updateUser row.user request.userInfo first) fun _ =>
      pure errIdDuplicateName : Service Int) w = .ok ret (afterUser request first row w) := by
    show EStateM.tryCatch _ _ w = _
    rw [EStateM.tryCatch, huser]
  rw [updateUserInfo, if_neg (id_or_name_of_filter hfilter), bind_of_ok hquery]
  show ∃ response, updateFound request row.queried first second w = _ ∧ _
  rw [updateFound, UserRow.queried, bind_of_ok hcaught, bind_of_ok htasks]
  by_cases hok : ret = ok
  · rw [if_pos hok]
    exact ⟨success request, rfl, fun _ => hret.mp hok, fun _ => rfl⟩
  · rw [if_neg hok]
    exact ⟨failedMap request ret, rfl, fun h => hret.mp h, fun h => hret.mpr h⟩

theorem updateUserInfo_missed (first second : Outcome) (h : found request query w = none) :
    left (updateUserInfo request query first second w) = w ∧
      ¬ Succeeds (updateUserInfo request query first second w) := by
  unfold updateUserInfo
  split
  · exact ⟨rfl, fun ⟨_, _, heq, herr⟩ => by cases heq; cases herr⟩
  · have hmissed : ∀ users : List User, users.length ≠ 1 → queryUser query request.user w =
        .ok users w → serviceQueryUser query request.user w = .ok none w := by
      intro users hlength hmapper
      rw [serviceQueryUser, bind_of_ok hmapper, if_pos hlength]
      rfl
    have hanswer : serviceQueryUser query request.user w = .ok none w ∨
        serviceQueryUser query request.user w = .error .mapper w := by
      cases query with
      | normal =>
        refine .inl (hmissed _ ?_ rfl)
        rw [List.length_map]
        intro hone
        obtain ⟨row, hrow⟩ := List.length_eq_one_iff.mp hone
        rw [found_of_filter hrow] at h
        cases h
      | wrongCount users hrows => exact .inl (hmissed users hrows rfl)
      | thrown => exact .inr (bind_of_error rfl)
    rcases hanswer with hquery | hquery
    · rw [bind_of_ok hquery]
      exact ⟨rfl, fun ⟨_, _, heq, herr⟩ => by cases heq; cases herr⟩
    · rw [bind_of_error hquery]
      exact ⟨rfl, fun ⟨_, _, heq, _⟩ => nomatch heq⟩

end User

end HakunaMatata.UserService
