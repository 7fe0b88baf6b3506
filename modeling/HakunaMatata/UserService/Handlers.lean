import HakunaMatata.Base.Programs
import HakunaMatata.UserService.UpdateInfo

/-!
# The handlers of `UserController.java`

A handler is a program: it calls the mappers, and between two calls the database may be changed by
the handlers of other requests. Only `addUser` of the service is a transaction, and is one call. How
the calls go is up to the database, as in the model of the service. `run_updateInfo` says that the
program of `/update/info` is, on its own, the handler that the service's model has.
-/

namespace HakunaMatata.UserService

open Base

/-! ## What the handlers take and return -/

/-- `UserModel`. -/
structure UserModel where
  id : Option Int
  name : Option String
  status : Option String
  numTasks : Option Int
  deriving DecidableEq, Repr

/-- `UserPasswdModel`. -/
structure UserPasswdModel where
  id : Option Int
  name : Option String
  password : Option String
  newPassword : Option String
  deriving DecidableEq, Repr

/-- The object that an answer carries. -/
inductive Body where
  | user (model : UserModel)
  | passwd (model : UserPasswdModel)
  | update (model : UserUpdateModel)
  deriving DecidableEq, Repr

/-- The map that a handler returns. -/
structure Answer where
  errorId : Int
  errorMsg : String
  data : Body
  deriving DecidableEq, Repr

/-- `ReturnMsgUtils.success`. -/
def Answer.success (data : Body) : Answer :=
  ⟨0, "", data⟩

/-- `ReturnMsgUtils.failedMap` with the message of the error id. -/
def Answer.failedMap (data : Body) (errId : Int) : Answer :=
  ⟨errId, getErrorMessage errId, data⟩

/-- `ErrorIdUtils.errIdPassword`. -/
def errIdPassword : Int := 1004

/-- `UserStatusUtils.freeze`. -/
def statusFreeze : Int := 1

/-- `UserStatusUtils.strStatus`. -/
def strStatus (status : Option Int) : String :=
  if status = some 0 then "normal" else if status = some 1 then "freeze" else "unknown"

/-- The exception of a call on a null reference. -/
def nullPointer : Exn := .runtime "NullPointerException"

/-! ## `PasswordUtils.java` -/

/-- What `bcryptCheck` does: it returns, or throws because there is no SHA-512, or because the
stored text is not one that `BCrypt` wrote. -/
inductive Checked where
  | answer (isMatch : Bool)
  | noSuchAlgorithm
  | illegalArgument
  deriving DecidableEq, Repr

/-- The libraries: the charset of the platform, the digest, if there is SHA-512, and `BCrypt`, whose
`checkpw` returns nothing if it throws. Of `BCrypt` is known that it accepts the password that it
hashed with a salt of its own. -/
structure Passwords where
  getBytes : String → List UInt8
  sha512 : Option (List UInt8 → List UInt8)
  gensalt : Nat → Nat → String
  hashpw : String → String → String
  checkpw : String → String → Option Bool
  checkpw_hashpw : ∀ password rounds random,
    checkpw password (hashpw password (gensalt rounds random)) = some true

/-- `bytesToHexString`. -/
def bytesToHexString (bArray : List UInt8) : String :=
  bArray.foldl (fun sb b =>
    let sTemp := String.ofList (Nat.toDigits 16 b.toNat)
    (if sTemp.length < 2 then sb ++ "0" else sb) ++ sTemp) ""

namespace Passwords

variable (passwords : Passwords)

/-- The first half of `bcryptHash` and `bcryptCheck`. There is none without SHA-512. -/
def sha512Password (plaintext : String) : Option String :=
  passwords.sha512.map fun digest => bytesToHexString (digest (passwords.getBytes plaintext))

/-- `bcryptHash`, with what `gensalt` draws. -/
def bcryptHash (random : Nat) (plaintext : String) : Option String :=
  (passwords.sha512Password plaintext).map fun sha512Password =>
    passwords.hashpw sha512Password (passwords.gensalt 10 random)

/-- `bcryptCheck`. -/
def bcryptCheck (plaintext hashed : String) : Checked :=
  match passwords.sha512Password plaintext with
  | none => .noSuchAlgorithm
  | some sha512Password =>
    (passwords.checkpw sha512Password hashed).elim .illegalArgument .answer

variable {passwords} {random : Nat} {plaintext hashed : String}

theorem check_hash (h : passwords.bcryptHash random plaintext = some hashed) :
    passwords.bcryptCheck plaintext hashed = .answer true := by
  obtain ⟨sha512Password, hsha512, rfl⟩ := Option.map_eq_some_iff.1 h
  rw [bcryptCheck, hsha512]
  simp only [passwords.checkpw_hashpw, Option.elim_some]

end Passwords

/-! ## Calls -/

/-- The calls of the handlers. -/
inductive Call where
  | queryUser (user : User)
  | queryUserPassword (user : User)
  | queryAuthority (userId : Option Int)
  | addUser (user : User) (hashed : Option String)
  | updateUser (user newUser : User)
  | updateUserPassword (user : User)
  | updateAuthority (authority : Authority)
  deriving DecidableEq, Repr

/-- What a call returns, if it does not throw. `addUser` returns its result and the id that the user
has behind it. -/
abbrev Call.Value : Call → Type
  | .queryUser _ => List User
  | .queryUserPassword _ => List User
  | .queryAuthority _ => List Authority
  | .addUser _ _ => Int × Option Int
  | .updateUser _ _ => Nat
  | .updateUserPassword _ => Nat
  | .updateAuthority _ => Nat

/-- The reply to a call. -/
abbrev Call.Reply (c : Call) : Type := Except Exn c.Value

/-- How a query of `t_authority` goes. -/
inductive AuthorityOutcome where
  | normal
  | wrongCount (authorities : List Authority) (hrows : authorities.length ≠ 1)
  | thrown
  deriving DecidableEq, Repr

/-- How the statements of a call go. -/
structure Outcomes where
  query : QueryOutcome
  authorities : AuthorityOutcome
  first : Outcome
  second : Outcome
  deriving DecidableEq, Repr

/-- Every statement goes as its SQL says. -/
def Outcomes.normal : Outcomes := ⟨.normal, .normal, .normal, .normal⟩

/-- The columns that `queryUserPassword` selects. -/
def UserRow.secret (row : UserRow) : User :=
  ⟨some row.id, none, some row.password, none⟩

/-- `UserMapper.queryUserPassword`. -/
def queryUserPassword (outcome : QueryOutcome) (user : User) : Service (List User) := fun w =>
  match outcome with
  | .normal => .ok ((w.database.users.filter user.selects).map UserRow.secret) w
  | .wrongCount users _ => .ok users w
  | .thrown => .error .mapper w

/-- `AuthorityMapper.queryAuthority`. -/
def queryAuthority (outcome : AuthorityOutcome) (userId : Option Int) :
    Service (List Authority) := fun w =>
  match outcome with
  | .normal =>
    .ok ((w.database.authorities.filter (ofUser userId)).map fun row =>
      ⟨some row.userId, some row.numTasks⟩) w
  | .wrongCount authorities _ => .ok authorities w
  | .thrown => .error .mapper w

/-- The reply and the state. -/
def reply {α : Type} : EStateM.Result Exn State α → Except Exn α × State
  | .ok a w => (.ok a, w)
  | .error e w => (.error e, w)

/-- What a call does. The id of a user that was added is the generated one. -/
def perform (outcomes : Outcomes) : (c : Call) → State → c.Reply × State
  | .queryUser user, w => reply (queryUser outcomes.query user w)
  | .queryUserPassword user, w => reply (queryUserPassword outcomes.query user w)
  | .queryAuthority userId, w => reply (queryAuthority outcomes.authorities userId w)
  | .addUser user hashed, w =>
    reply ((do
      let ret ← addUser user hashed outcomes.first outcomes.second
      pure (ret, if ret = ok then some w.outside else none) : Service (Int × Option Int)) w)
  | .updateUser user newUser, w => reply (execute outcomes.first (updateUserRow user newUser) w)
  | .updateUserPassword user, w => reply (execute outcomes.first (updatePasswordRow user) w)
  | .updateAuthority authority, w =>
    reply (execute outcomes.second (updateAuthorityRow authority) w)

/-- A handler returns an answer or throws. -/
abbrev Handler := Program Call Call.Reply (Except Exn Answer)

/-- The handler returns. -/
abbrev Handler.return (answer : Answer) : Handler := .done (.ok answer)

/-- The handler throws. -/
abbrev Handler.throw (e : Exn) : Handler := .done (.error e)

/-! ## The service, up to what the handler does next -/

/-- `UserService.queryUser`. -/
def Handler.queryUser (user : User) (next : Option User → Handler) : Handler :=
  .call (.queryUser user) fun (result : Except Exn (List User)) =>
    match result with
    | .error e => Handler.throw e
    | .ok users => next (if users.length ≠ 1 then none else users.head?)

/-- `UserService.queryUserAuthority`. -/
def Handler.queryUserAuthority (userId : Option Int) (next : Option Authority → Handler) :
    Handler :=
  .call (.queryAuthority userId) fun (result : Except Exn (List Authority)) =>
    match result with
    | .error e => Handler.throw e
    | .ok authorities => next (if authorities.length ≠ 1 then none else authorities.head?)

/-- The end of `checkUserPassword`, with the text that is stored. -/
def Handler.checkStored (passwords : Passwords) (password stored : Option String)
    (next : Int → Handler) : Handler :=
  match password, stored with
  | some plaintext, some hashed =>
    match passwords.bcryptCheck plaintext hashed with
    | .answer isMatch => next (if isMatch then ok else errIdPassword)
    | .noSuchAlgorithm => next errIdPassword
    | .illegalArgument => Handler.throw (.runtime "IllegalArgumentException")
  | _, _ => Handler.throw nullPointer

/-- `UserService.checkUserPassword`. -/
def Handler.checkUserPassword (passwords : Passwords) (user : User) (next : Int → Handler) :
    Handler :=
  .call (.queryUserPassword user) fun (result : Except Exn (List User)) =>
    match result with
    | .error e => Handler.throw e
    | .ok [found] => Handler.checkStored passwords user.password found.password next
    | .ok _ => next errIdInvalidUser

/-- The result of an update that throws or changes another number of rows than one is `-1`. -/
def updated (result : Except Exn Nat) : Int :=
  match result with
  | .ok updateCnt => if updateCnt ≠ 1 then -1 else ok
  | .error _ => -1

/-- `UserService.updateUser`. It catches what is thrown. -/
def Handler.updateUser (user newUser : User) (next : Int → Handler) : Handler :=
  if newUser.name.any badName then next errIdInvalidUser
  else .call (.updateUser user newUser) fun (result : Except Exn Nat) => next (updated result)

/-- `UserService.updatePassword`. -/
def Handler.updatePassword (passwords : Passwords) (salt : Nat) (user : User)
    (password : Option String) (next : Int → Handler) : Handler :=
  if badPassword password then next errIdPasswordLen
  else
    match password.bind (passwords.bcryptHash salt) with
    | none => next (-1)
    | some hashed =>
      .call (.updateUserPassword { user with password := some hashed })
        fun (result : Except Exn Nat) =>
          match result with
          | .error e => Handler.throw e
          | .ok updateCnt => next (if updateCnt ≠ 1 then -1 else ok)

/-- `UserService.updateAuthority`. It catches what is thrown. -/
def Handler.updateAuthority (authority : Authority) (next : Int → Handler) : Handler :=
  if authority.userId = none then next errIdInvalidUser
  else .call (.updateAuthority authority) fun (result : Except Exn Nat) => next (updated result)

/-! ## The handlers -/

/-- `UserController.queryUser`, `/query/info`. -/
def queryInfo (userId : Option Int) (userName : Option String) : Handler :=
  Handler.queryUser ⟨userId, userName, none, none⟩ fun user =>
    match user with
    | none => Handler.return (.failedMap (.user ⟨userId, userName, none, none⟩) errIdNotFound)
    | some user =>
      Handler.queryUserAuthority user.id fun authority =>
        match authority with
        | none =>
          Handler.return
            ⟨errIdNotFound, "authority not found", .user ⟨user.id, user.name, none, none⟩⟩
        | some authority =>
          Handler.return (.success
            (.user ⟨user.id, user.name, some (strStatus user.status), authority.numTasks⟩))

/-- The answer of `/add`, whose model has lost its password. -/
def addAnswer (model : UserPasswdModel) (ret : Int) : Answer :=
  if ret = ok then .success (.passwd { model with password := none })
  else .failedMap (.passwd { model with password := none }) ret

/-- `UserController.addUser`, `/add`. An exception of the service is caught. -/
def add (passwords : Passwords) (salt : Nat) (model : UserPasswdModel) : Handler :=
  let user : User := ⟨none, model.name, model.password, none⟩
  Handler.queryUser user fun found =>
    match found with
    | some _ => Handler.return (.failedMap (.passwd model) errIdDuplicateName)
    | none =>
      .call (.addUser user (model.password.bind (passwords.bcryptHash salt)))
        fun (result : Except Exn (Int × Option Int)) =>
          match result with
          | .ok (ret, id) => Handler.return (addAnswer { model with id := id } ret)
          | .error _ => Handler.return (addAnswer model (-1))

/-- `UserController.freezeUser`, `/freeze`. -/
def freeze (model : UserModel) : Handler :=
  let updateUser : User := ⟨none, none, none, some statusFreeze⟩
  Handler.updateUser ⟨model.id, model.name, none, none⟩ updateUser fun ret =>
    Handler.return (if ret = ok then .success (.user model) else .failedMap (.user model) ret)

/-- The model of `/update/password` without the passwords. -/
def UserPasswdModel.cleared (model : UserPasswdModel) : UserPasswdModel :=
  { model with password := none, newPassword := none }

/-- `UserController.updatePassword`, `/update/password`. -/
def changePassword (passwords : Passwords) (salt : Nat) (model : UserPasswdModel) : Handler :=
  let user : User := ⟨model.id, model.name, model.password, none⟩
  Handler.checkUserPassword passwords user fun ret =>
    if ret ≠ ok then Handler.return (.failedMap (.passwd model.cleared) ret)
    else
      Handler.updatePassword passwords salt user model.newPassword fun ret =>
        Handler.return (if ret = ok then .success (.passwd model.cleared)
          else .failedMap (.passwd model.cleared) ret)

/-- The answer of `/update/info`, once the user is found. -/
def infoAnswer (request : UserUpdateModel) (ret : Int) : Answer :=
  if ret = ok then .success (.update request) else .failedMap (.update request) ret

/-- The updates of `/update/info`, once the user is found. -/
def Handler.updateFound (request : UserUpdateModel) (rspUser : User) : Handler :=
  Handler.updateUser ⟨rspUser.id, rspUser.name, none, none⟩ request.userInfo fun ret =>
    match request.newNumTasks with
    | none => Handler.return (infoAnswer request ret)
    | some numTasks =>
      Handler.updateAuthority ⟨rspUser.id, some numTasks⟩ fun _ =>
        Handler.return (infoAnswer request ret)

/-- `UserController.updateUserInfo`, `/update/info`. -/
def updateInfo (request : UserUpdateModel) : Handler :=
  if request.id = none ∧ request.name = none then
    Handler.return (.failedMap (.update request) errIdInvalidParam)
  else
    Handler.queryUser request.user fun rspUser =>
      match rspUser with
      | none => Handler.return (.failedMap (.update request) errIdNotFound)
      | some rspUser => Handler.updateFound request rspUser

/-- A request. The salt is the one that `gensalt` returns for it. -/
inductive Request where
  | queryInfo (userId : Option Int) (userName : Option String)
  | add (model : UserPasswdModel) (salt : Nat)
  | freeze (model : UserModel)
  | changePassword (model : UserPasswdModel) (salt : Nat)
  | updateInfo (model : UserUpdateModel)
  deriving DecidableEq, Repr

/-- The handler of a request. -/
def Request.handler (passwords : Passwords) : Request → Handler
  | .queryInfo userId userName => UserService.queryInfo userId userName
  | .add model salt => UserService.add passwords salt model
  | .freeze model => UserService.freeze model
  | .changePassword model salt => UserService.changePassword passwords salt model
  | .updateInfo model => UserService.updateInfo model

/-! ## The handler of `/update/info` on its own -/

/-- The answer of a response. -/
def Response.answer (response : Response) : Answer :=
  ⟨response.errorId, response.errorMsg, .update response.data⟩

section Run

variable {user newUser : User} {outcomes : Outcomes} {w w' : State}

theorem run_queryUser {rspUser : Option User} {next : Option User → Handler}
    (h : serviceQueryUser outcomes.query user w = .ok rspUser w') :
    (Handler.queryUser user next).run (perform outcomes) w =
      (next rspUser).run (perform outcomes) w' := by
  obtain ⟨users, w₁, hquery, hrest⟩ := bind_returns.mp h
  simp only [Handler.queryUser, Program.run, perform, hquery, reply]
  by_cases hlength : users.length ≠ 1
  · rw [if_pos hlength] at hrest ⊢
    cases hrest
    rfl
  · rw [if_neg hlength] at hrest ⊢
    cases hrest
    rfl

theorem run_queryUser_error {e : Exn} {next : Option User → Handler}
    (h : serviceQueryUser outcomes.query user w = .error e w') :
    (Handler.queryUser user next).run (perform outcomes) w = (.error e, w') := by
  cases hquery : queryUser outcomes.query user w with
  | error e' w₁ =>
    rw [serviceQueryUser, bind_of_error hquery] at h
    cases h
    simp only [Handler.queryUser, Program.run, perform, hquery, reply]
  | ok users w₁ =>
    rw [serviceQueryUser, bind_of_ok hquery] at h
    split at h <;> cases h

theorem caught_updated (outcome : Outcome) (sql : State → Except Exn Effect) (w : State) :
    (tryCatch (oneUpdated outcome sql) fun _ => pure (-1) : Service Int) w =
      .ok (updated (reply (execute outcome sql w)).1) (reply (execute outcome sql w)).2 := by
  show EStateM.tryCatch _ _ w = _
  rw [EStateM.tryCatch, oneUpdated]
  cases hexecute : execute outcome sql w with
  | error e w₁ =>
    rw [bind_of_error hexecute]
    rfl
  | ok rows w₁ =>
    rw [bind_of_ok hexecute]
    by_cases hrows : rows ≠ 1
    · simp only [if_pos hrows, reply, updated]
      rfl
    · simp only [if_neg hrows, reply, updated]
      rfl

theorem run_updateUser (user newUser : User) (outcomes : Outcomes) (w : State)
    (next : Int → Handler) : ∃ ret w', updateUser user newUser outcomes.first w = .ok ret w' ∧
      (Handler.updateUser user newUser next).run (perform outcomes) w =
        (next ret).run (perform outcomes) w' := by
  rw [updateUser, Handler.updateUser]
  split
  · exact ⟨errIdInvalidUser, w, rfl, rfl⟩
  · exact ⟨_, _, caught_updated _ _ w, rfl⟩

theorem run_updateAuthority (authority : Authority) (outcomes : Outcomes) (w : State)
    (next : Int → Handler) : ∃ ret w', updateAuthority authority outcomes.second w = .ok ret w' ∧
      (Handler.updateAuthority authority next).run (perform outcomes) w =
        (next ret).run (perform outcomes) w' := by
  rw [updateAuthority, Handler.updateAuthority]
  split
  · exact ⟨errIdInvalidUser, w, rfl, rfl⟩
  · exact ⟨_, _, caught_updated _ _ w, rfl⟩

theorem run_updateFound (request : UserUpdateModel) (rspUser : User) (outcomes : Outcomes)
    (w : State) :
    ∃ ret w', updateFound request rspUser outcomes.first outcomes.second w =
        .ok (if ret = ok then success request else failedMap request ret) w' ∧
      (Handler.updateFound request rspUser).run (perform outcomes) w =
        (.ok (infoAnswer request ret), w') := by
  obtain ⟨ret, w₁, hupdate, hrun⟩ := run_updateUser ⟨rspUser.id, rspUser.name, none, none⟩
    request.userInfo outcomes w fun ret =>
      match request.newNumTasks with
      | none => Handler.return (infoAnswer request ret)
      | some numTasks =>
        Handler.updateAuthority ⟨rspUser.id, some numTasks⟩ fun _ =>
          Handler.return (infoAnswer request ret)
  have hcaught : (tryCatch (updateUser ⟨rspUser.id, rspUser.name, none, none⟩ request.userInfo
      outcomes.first) fun _ => pure errIdDuplicateName : Service Int) w = .ok ret w₁ := by
    show EStateM.tryCatch _ _ w = _
    rw [EStateM.tryCatch, hupdate]
  rw [Handler.updateFound, hrun, updateFound, bind_of_ok hcaught]
  cases htasks : request.newNumTasks with
  | none =>
    refine ⟨ret, w₁, ?_, rfl⟩
    show (if ret = ok then pure (success request) else pure (failedMap request ret) :
      Service Response) w₁ = _
    split <;> rfl
  | some numTasks =>
    obtain ⟨ret', w₂, hauthority, hrun'⟩ := run_updateAuthority ⟨rspUser.id, some numTasks⟩
      outcomes w₁ fun _ => Handler.return (infoAnswer request ret)
    refine ⟨ret, w₂, ?_, hrun'⟩
    rw [Option.elim_some, bind_of_ok hauthority]
    split <;> rfl

theorem run_updateInfo (request : UserUpdateModel) (outcomes : Outcomes) (w : State) :
    (updateInfo request).run (perform outcomes) w =
      reply ((Response.answer <$>
        updateUserInfo request outcomes.query outcomes.first outcomes.second) w) := by
  rw [updateInfo, updateUserInfo, map_eq_pure_bind]
  split
  · rfl
  · cases hquery : serviceQueryUser outcomes.query request.user w with
    | error e w₁ =>
      rw [run_queryUser_error hquery, bind_of_error (bind_of_error hquery)]
      rfl
    | ok rspUser w₁ =>
      rw [run_queryUser hquery, bind_assoc, bind_of_ok hquery]
      cases rspUser with
      | none => rfl
      | some rspUser =>
        obtain ⟨ret, w₂, hfound, hrun⟩ := run_updateFound request rspUser outcomes w₁
        rw [Option.elim_some, bind_of_ok hfound]
        show (Handler.updateFound request rspUser).run (perform outcomes) w₁ = _
        rw [hrun, infoAnswer]
        split <;> rfl

end Run

end HakunaMatata.UserService
