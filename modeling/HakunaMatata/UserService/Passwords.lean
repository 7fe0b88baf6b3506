import Mathlib.Data.List.Induction
import HakunaMatata.UserService.Handlers
import HakunaMatata.UserService.Bijection

/-!
# Who can change a password

Requests arrive at any time, and their handlers make their calls in any order, with any outcome.
`/update/password` looks the user up twice, once for the stored password and once for the update,
and other handlers can make calls in between. A request that gives the id of its user changes the
password of a user only if it has proved to know that user's password before: `password_proved`. A
request that gives a name only can change the password of another user, if two users are renamed
between its calls: `byName_not_proved`.
-/

namespace HakunaMatata.UserService

open Base

/-! ## Requests at the same time -/

/-- The password that a request shows. -/
def Request.password : Request → Option String
  | .changePassword model _ => model.password
  | _ => none

/-- The id of a user whose password is the one that the request shows. -/
def grants (passwords : Passwords) (request : Request) (row : UserRow) : List Int :=
  request.password.elim [] fun plaintext =>
    if passwords.bcryptCheck plaintext row.password = .answer true then [row.id] else []

/-- A request whose handler has not come to its end. `proved` are the ids of the users whose
password the request has shown when their stored passwords were looked up. -/
structure Slot where
  request : Request
  handler : Handler
  proved : List Int

/-- The server. -/
structure Server where
  world : State
  slots : List Slot

/-- What happens next. -/
inductive Event where
  | arrive (request : Request)
  | advance (slot : Nat) (outcomes : Outcomes)
  deriving DecidableEq, Repr

/-- What the next call proves. -/
def proves (passwords : Passwords) (request : Request) (outcomes : Outcomes) (handler : Handler)
    (w : State) : List Int :=
  match handler with
  | .call (.queryUserPassword user) _ =>
    match outcomes.query, w.database.users.filter user.selects with
    | .normal, [row] => grants passwords request row
    | _, _ => []
  | _ => []

/-- The next call of a handler. -/
def Slot.advance (passwords : Passwords) (outcomes : Outcomes) (slot : Slot) (w : State) :
    Slot where
  request := slot.request
  handler := (slot.handler.advance (perform outcomes) w).1
  proved := proves passwords slot.request outcomes slot.handler w ++ slot.proved

/-- The server after an event. -/
def Server.step (passwords : Passwords) (s : Server) : Event → Server
  | .arrive request =>
    { s with slots := s.slots ++ [⟨request, request.handler passwords, []⟩] }
  | .advance i outcomes =>
    match s.slots[i]? with
    | none => s
    | some slot =>
      { world := (slot.handler.advance (perform outcomes) s.world).2
        slots := s.slots.set i (slot.advance passwords outcomes s.world) }

/-- The server after some events. -/
def Server.after (passwords : Passwords) (events : List Event) : Server :=
  events.foldl (Server.step passwords) ⟨State.init, []⟩

/-- A handler that is the only one to make calls does what its program does as a whole. -/
theorem Server.alone {passwords : Passwords} {s : Server} {i : Nat} {slot : Slot}
    (hget : s.slots[i]? = some slot) (outcomes : Outcomes) :
    ∃ n s', (List.replicate n (.advance i outcomes)).foldl (Server.step passwords) s = s' ∧
      s'.world = (slot.handler.run (perform outcomes) s.world).2 ∧
      s'.slots[i]?.map Slot.handler =
        some (.done (slot.handler.run (perform outcomes) s.world).1) := by
  -- the induction is on the calls that the handler still makes
  induction hhandler : slot.handler generalizing s slot with
  | done result => exact ⟨0, s, rfl, rfl, by rw [hget, Option.map_some, hhandler]; rfl⟩
  | call c next ih =>
    have hstep : s.step passwords (.advance i outcomes) = ⟨(perform outcomes c s.world).2,
        s.slots.set i (slot.advance passwords outcomes s.world)⟩ := by
      simp only [Server.step, hget, hhandler, Program.advance]
    have hnext : (slot.advance passwords outcomes s.world).handler =
        next (perform outcomes c s.world).1 := by
      rw [Slot.advance, hhandler]
      rfl
    have hlt := (List.getElem?_eq_some_iff.mp hget).1
    obtain ⟨n, s', hsteps, hworld, hdone⟩ :=
      ih _ (s := ⟨_, _⟩) (List.getElem?_set_self hlt) hnext
    refine ⟨n + 1, s', ?_, hworld, hdone⟩
    rw [List.replicate_succ, List.foldl_cons, hstep, hsteps]

/-! ## What the calls do to the passwords -/

/-- Every user is still there, with the password. -/
def KeepsPasswords (w w' : State) : Prop :=
  ∀ row ∈ w.database.users, ∃ row' ∈ w'.database.users,
    row'.id = row.id ∧ row'.password = row.password

section Calls

variable {user newUser : User} {w w' : State} {outcome : Outcome} {outcomes : Outcomes}

theorem KeepsPasswords.of_users (h : w'.database.users = w.database.users) :
    KeepsPasswords w w' :=
  fun row hrow => ⟨row, h ▸ hrow, rfl, rfl⟩

theorem KeepsPasswords.refl (w : State) : KeepsPasswords w w := .of_users rfl

theorem KeepsPasswords.trans (w w' w'' : State) (h : KeepsPasswords w w')
    (h' : KeepsPasswords w' w'') : KeepsPasswords w w'' := by
  intro row hrow
  obtain ⟨row', hrow', hid, hpassword⟩ := h row hrow
  obtain ⟨row'', hrow'', hid', hpassword'⟩ := h' row' hrow'
  exact ⟨row'', hrow'', hid'.trans hid, hpassword'.trans hpassword⟩

theorem id_of_selects {id : Int} (hid : user.id = some id) {row : UserRow}
    (h : user.selects row = true) : row.id = id := by
  rw [User.selects, hid] at h
  exact of_decide_eq_true h

theorem updateUsers_eq_ok {change : UserRow → UserRow} {effect : Effect}
    (h : updateUsers user change w = .ok effect) : effect.state.database.users =
      w.database.users.map fun row => if user.selects row then change row else row := by
  unfold updateUsers at h
  dsimp only at h
  split at h
  · cases h
    rfl
  · cases h

theorem updateUserRow_keeps {effect : Effect} (h : updateUserRow user newUser w = .ok effect) :
    KeepsPasswords w effect.state := by
  unfold updateUserRow at h
  split at h
  · cases h
  · intro row hrow
    refine ⟨_, updateUsers_eq_ok h ▸ List.mem_map_of_mem hrow, ?_⟩
    split <;> exact ⟨rfl, rfl⟩

theorem insertUser_keeps {effect : Effect} (h : insertUser user w = .ok effect) :
    KeepsPasswords w effect.state := by
  obtain ⟨name, password, rfl⟩ := insertUser_eq_ok h
  exact fun row hrow => ⟨row, List.mem_append_left _ hrow, rfl, rfl⟩

theorem insertAuthority_keeps {authority : Authority} {effect : Effect}
    (h : insertAuthority authority w = .ok effect) : KeepsPasswords w effect.state := by
  obtain ⟨userId, numTasks, _, rfl⟩ := insertAuthority_eq_ok h
  exact .of_users rfl

theorem updateAuthorityRow_keeps {authority : Authority} {effect : Effect}
    (h : updateAuthorityRow authority w = .ok effect) : KeepsPasswords w effect.state := by
  unfold updateAuthorityRow at h
  cases htasks : authority.numTasks with
  | none =>
    rw [htasks] at h
    cases h
  | some numTasks =>
    rw [htasks] at h
    cases h
    exact .of_users rfl

theorem follows_addUserBody (user : User) (hashed : Option String) (first second : Outcome) :
    Follows KeepsPasswords (addUserBody user hashed first second) := by
  have hrefl := KeepsPasswords.refl
  have htrans := KeepsPasswords.trans
  unfold addUserBody
  split
  · exact Follows.pure hrefl _
  split
  · exact Follows.pure hrefl _
  cases hashed with
  | none => exact Follows.pure hrefl _
  | some text =>
    refine Follows.bind htrans ?_ fun added => ?_
    · refine Follows.bind htrans hrefl fun _ => ?_
      exact Follows.bind htrans (follows_execute hrefl fun _ _ => insertUser_keeps)
        fun _ => Follows.pure hrefl _
    · split
      · exact Follows.throw hrefl _
      · refine Follows.bind htrans
          (follows_execute hrefl fun _ _ => insertAuthority_keeps) fun addCnt => ?_
        split
        · exact Follows.throw hrefl _
        · exact Follows.pure hrefl _

theorem follows_addUser (user : User) (hashed : Option String) (first second : Outcome) :
    Follows KeepsPasswords (addUser user hashed first second) := by
  intro w
  have hbody := follows_addUserBody user hashed first second w
  rw [addUser]
  cases h : addUserBody user hashed first second w with
  | ok ret w' =>
    rw [transactional_of_ok h]
    rwa [h] at hbody
  | error e w' =>
    rw [transactional_of_error h]
    exact .of_users rfl

theorem reply_state {α : Type} (result : EStateM.Result Exn State α) :
    (reply result).2 = left result := by
  cases result <;> rfl

theorem perform_keeps (outcomes : Outcomes) {c : Call}
    (hc : ∀ user, c ≠ .updateUserPassword user) (w : State) :
    KeepsPasswords w (perform outcomes c w).2 := by
  have hrefl := KeepsPasswords.refl
  cases c <;> rw [perform, reply_state]
  case queryUser user => cases outcomes.query <;> exact hrefl w
  case queryUserPassword user => cases outcomes.query <;> exact hrefl w
  case queryAuthority userId => cases outcomes.authorities <;> exact hrefl w
  case addUser user hashed =>
    exact Follows.bind KeepsPasswords.trans (follows_addUser user hashed _ _)
      (fun _ => Follows.pure hrefl _) w
  case updateUser user newUser => exact follows_execute hrefl (fun _ _ => updateUserRow_keeps) w
  case updateUserPassword user => exact absurd rfl (hc user)
  case updateAuthority authority =>
    exact follows_execute hrefl (fun _ _ => updateAuthorityRow_keeps) w

/-- The update of a password changes the passwords of the users that it selects. -/
theorem perform_updateUserPassword (outcomes : Outcomes) {hashed : String}
    (hpassword : user.password = some hashed) (w : State) (row : UserRow)
    (hrow : row ∈ w.database.users) :
    ∃ row' ∈ (perform outcomes (.updateUserPassword user) w).2.database.users,
      row'.id = row.id ∧ (row'.password = row.password ∨
        user.selects row = true ∧ row'.password = hashed) := by
  rw [perform, reply_state]
  refine follows_execute (R := fun w w' : State => ∀ row ∈ w.database.users,
    ∃ row' ∈ w'.database.users, row'.id = row.id ∧ (row'.password = row.password ∨
      user.selects row = true ∧ row'.password = hashed)) ?_ ?_ w row hrow
  · exact fun w row hrow => ⟨row, hrow, rfl, .inl rfl⟩
  · intro w effect h row hrow
    rw [updatePasswordRow, hpassword] at h
    refine ⟨_, updateUsers_eq_ok h ▸ List.mem_map_of_mem hrow, ?_⟩
    split
    · rename_i hselects
      exact ⟨rfl, .inr ⟨hselects, rfl⟩⟩
    · exact ⟨rfl, .inl rfl⟩

end Calls

/-! ## What a handler may do -/

/-- The request may set this password for this user. -/
structure Permits (passwords : Passwords) (request : Request) (proved : List Int) (id : Int)
    (hashed : String) : Prop where
  proved : id ∈ proved
  request : ∃ model salt newPassword, request = .changePassword model salt ∧
    model.newPassword = some newPassword ∧ badPassword (some newPassword) = false ∧
    passwords.bcryptHash salt newPassword = some hashed

/-- Whatever the replies are, the handler sets a password only for a user whose password the request
has shown. -/
inductive Safe (passwords : Passwords) (request : Request) : List Int → Handler → Prop
  | done {proved : List Int} (result : Except Exn Answer) :
      Safe passwords request proved (.done result)
  | check {proved : List Int} (user : User) (next : Except Exn (List User) → Handler)
      (herror : ∀ e, Safe passwords request proved (next (.error e)))
      (hother : ∀ users, users.length ≠ 1 → Safe passwords request proved (next (.ok users)))
      (hfound : ∀ row, user.selects row = true →
        Safe passwords request (grants passwords request row ++ proved)
          (next (.ok [row.secret]))) :
      Safe passwords request proved (.call (.queryUserPassword user) next)
  | change {proved : List Int} (user : User) (id : Int) (hashed : String)
      (next : Except Exn Nat → Handler) (hid : user.id = some id)
      (hpassword : user.password = some hashed)
      (hpermits : Permits passwords request proved id hashed)
      (hnext : ∀ result, Safe passwords request proved (next result)) :
      Safe passwords request proved (.call (.updateUserPassword user) next)
  | other {proved : List Int} (c : Call) (next : c.Reply → Handler)
      (hcheck : ∀ user, c ≠ .queryUserPassword user)
      (hchange : ∀ user, c ≠ .updateUserPassword user)
      (hnext : ∀ result, Safe passwords request proved (next result)) :
      Safe passwords request proved (.call c next)

section Safe

variable {passwords : Passwords} {request : Request} {proved : List Int}

theorem Safe.queryUser {user : User} {next : Option User → Handler}
    (h : ∀ found, Safe passwords request proved (next found)) :
    Safe passwords request proved (Handler.queryUser user next) := by
  refine .other _ _ nofun nofun fun result => ?_
  cases result with
  | error e => exact .done _
  | ok users => exact h _

theorem Safe.queryUserAuthority {userId : Option Int} {next : Option Authority → Handler}
    (h : ∀ found, Safe passwords request proved (next found)) :
    Safe passwords request proved (Handler.queryUserAuthority userId next) := by
  refine .other _ _ nofun nofun fun result => ?_
  cases result with
  | error e => exact .done _
  | ok authorities => exact h _

theorem Safe.updateUser {user newUser : User} {next : Int → Handler}
    (h : ∀ ret, Safe passwords request proved (next ret)) :
    Safe passwords request proved (Handler.updateUser user newUser next) := by
  unfold Handler.updateUser
  split
  · exact h _
  · exact .other _ _ nofun nofun fun _ => h _

theorem safe_queryInfo (userId : Option Int) (userName : Option String) :
    Safe passwords request proved (queryInfo userId userName) := by
  refine Safe.queryUser fun found => ?_
  cases found with
  | none => exact .done _
  | some user =>
    refine Safe.queryUserAuthority fun authority => ?_
    cases authority <;> exact .done _

theorem safe_add (salt : Nat) (model : UserPasswdModel) :
    Safe passwords request proved (add passwords salt model) := by
  unfold add
  refine Safe.queryUser fun found => ?_
  cases found with
  | some _ => exact .done _
  | none =>
    refine .other _ _ nofun nofun fun result => ?_
    cases result with
    | error e => exact .done _
    | ok added => exact .done _

theorem safe_freeze (model : UserModel) : Safe passwords request proved (freeze model) := by
  unfold freeze
  exact Safe.updateUser fun _ => .done _

theorem safe_updateInfo (model : UserUpdateModel) :
    Safe passwords request proved (updateInfo model) := by
  unfold updateInfo
  split
  · exact .done _
  refine Safe.queryUser fun found => ?_
  cases found with
  | none => exact .done _
  | some rspUser =>
    refine Safe.updateUser fun ret => ?_
    split
    · exact .done _
    · unfold Handler.updateAuthority
      split
      · exact .done _
      · exact .other _ _ nofun nofun fun _ => .done _

theorem safe_updatePassword {model : UserPasswdModel} {salt : Nat} {user : User} {id : Int}
    {next : Int → Handler} (hid : user.id = some id) (hproved : id ∈ proved)
    (h : ∀ ret, Safe passwords (.changePassword model salt) proved (next ret)) :
    Safe passwords (.changePassword model salt) proved
      (Handler.updatePassword passwords salt user model.newPassword next) := by
  unfold Handler.updatePassword
  split
  · exact h _
  · rename_i hgood
    split
    · exact h _
    · rename_i hashed hhash
      obtain ⟨newPassword, hnew, hhashed⟩ := Option.bind_eq_some_iff.mp hhash
      have hpermits : Permits passwords (.changePassword model salt) proved id hashed :=
        ⟨hproved, model, salt, newPassword, rfl, hnew, hnew ▸ Bool.eq_false_iff.mpr hgood, hhashed⟩
      refine .change _ id hashed _ hid rfl hpermits fun result => ?_
      cases result with
      | error e => exact .done _
      | ok updateCnt => exact h _

theorem safe_checkStored {model : UserPasswdModel} {salt : Nat} {row : UserRow}
    {next : Int → Handler}
    (hok : grants passwords (.changePassword model salt) row = [row.id] →
      Safe passwords (.changePassword model salt) proved (next ok))
    (hfails : Safe passwords (.changePassword model salt) proved (next errIdPassword)) :
    Safe passwords (.changePassword model salt) proved
      (Handler.checkStored passwords model.password (some row.password) next) := by
  cases hpassword : model.password with
  | none => exact .done _
  | some plaintext =>
    unfold Handler.checkStored
    dsimp only
    split
    · rename_i isMatch hcheck
      cases isMatch with
      | true =>
        refine hok ?_
        rw [grants, Request.password, hpassword, Option.elim_some, if_pos hcheck]
      | false => exact hfails
    · exact hfails
    · exact .done _

theorem safe_changePassword {model : UserPasswdModel} (salt : Nat) (h : model.id ≠ none) :
    Safe passwords (.changePassword model salt) proved
      (changePassword passwords salt model) := by
  obtain ⟨id, hid⟩ := Option.ne_none_iff_exists'.mp h
  unfold changePassword
  refine .check _ _ (fun e => .done _) (fun users hlength => ?_) fun row hselects => ?_
  · match users, hlength with
    | [], _ => exact .done _
    | [_], hlength => exact absurd rfl hlength
    | _ :: _ :: _, _ => exact .done _
  · have hrow : row.id = id := id_of_selects hid hselects
    refine safe_checkStored (fun hgrants => ?_) (.done _)
    have hproved : id ∈ grants passwords (.changePassword model salt) row ++ proved := by
      rw [hgrants, ← hrow]
      exact List.mem_append_left _ (List.mem_singleton_self _)
    rw [if_neg (not_not_intro rfl)]
    exact safe_updatePassword hid hproved fun ret => .done _

/-- The request gives the id, if it is one for a new password. -/
def Request.ById : Request → Prop
  | .changePassword model _ => model.id ≠ none
  | _ => True

theorem safe_handler (h : request.ById) :
    Safe passwords request proved (request.handler passwords) := by
  cases request with
  | queryInfo userId userName => exact safe_queryInfo userId userName
  | add model salt => exact safe_add salt model
  | freeze model => exact safe_freeze model
  | changePassword model salt => exact safe_changePassword salt h
  | updateInfo model => exact safe_updateInfo model

theorem Safe.advance {handler : Handler} (h : Safe passwords request proved handler)
    (outcomes : Outcomes) (w : State) :
    Safe passwords request (proves passwords request outcomes handler w ++ proved)
      (handler.advance (perform outcomes) w).1 := by
  cases h with
  | done result => exact .done _
  | check user next herror hother hfound =>
    simp only [proves, Program.advance, perform, queryUserPassword]
    cases outcomes.query with
    | thrown => exact herror _
    | wrongCount users hrows => exact hother users hrows
    | normal =>
      cases hfilter : w.database.users.filter user.selects with
      | nil => exact hother [] (by simp)
      | cons row rows =>
        cases rows with
        | cons row' rows => exact hother _ (by simp)
        | nil =>
          have hmem : row ∈ w.database.users.filter user.selects :=
            hfilter ▸ List.mem_singleton_self row
          exact hfound row (List.mem_filter.mp hmem).2
  | change user id hashed next hid hpassword hpermits hnext => exact hnext _
  | other c next hcheck hchange hnext =>
    have hnone : proves passwords request outcomes (.call c next) w = [] := by
      unfold proves
      split
      · rename_i user _ heq
        cases heq
        exact absurd rfl (hcheck user)
      · rfl
    rw [hnone]
    exact hnext _

theorem Safe.advance_users {handler : Handler} (h : Safe passwords request proved handler)
    (outcomes : Outcomes) (w : State) (row : UserRow) (hrow : row ∈ w.database.users) :
    ∃ row' ∈ (handler.advance (perform outcomes) w).2.database.users, row'.id = row.id ∧
      (row'.password = row.password ∨
        Permits passwords request proved row.id row'.password) := by
  cases h with
  | done result => exact ⟨row, hrow, rfl, .inl rfl⟩
  | check user next herror hother hfound =>
    have hc : ∀ other, Call.queryUserPassword user ≠ .updateUserPassword other := nofun
    obtain ⟨row', hrow', hid, hsame⟩ := perform_keeps outcomes hc w row hrow
    exact ⟨row', hrow', hid, .inl hsame⟩
  | other c next hcheck hchange hnext =>
    obtain ⟨row', hrow', hid, hsame⟩ := perform_keeps outcomes hchange w row hrow
    exact ⟨row', hrow', hid, .inl hsame⟩
  | change user id hashed next hid hpassword hpermits hnext =>
    obtain ⟨row', hrow', hid', hchanged⟩ :=
      perform_updateUserPassword outcomes hpassword w row hrow
    refine ⟨row', hrow', hid', hchanged.imp_right ?_⟩
    rintro ⟨hselects, hnew⟩
    rw [hnew, id_of_selects hid hselects]
    exact hpermits

end Safe

/-! ## Runs -/

section Runs

variable {passwords : Passwords} {s : Server} {event : Event} {events : List Event}

/-- The handlers of all requests are safe. -/
def Server.Safe (passwords : Passwords) (s : Server) : Prop :=
  ∀ slot ∈ s.slots, UserService.Safe passwords slot.request slot.proved slot.handler

/-- A request that arrives gives the id. -/
def Event.ById : Event → Prop
  | .arrive request => request.ById
  | .advance _ _ => True

theorem Server.Safe.step (h : s.Safe passwords) (hid : event.ById) :
    (s.step passwords event).Safe passwords := by
  cases event with
  | arrive request =>
    intro slot hslot
    rcases List.mem_append.mp hslot with hold | hnew
    · exact h slot hold
    · obtain rfl := List.mem_singleton.mp hnew
      exact safe_handler hid
  | advance i outcomes =>
    unfold Server.step
    dsimp only
    split
    · exact h
    · rename_i slot hget
      intro other hother
      rcases List.mem_or_eq_of_mem_set hother with hold | rfl
      · exact h other hold
      · exact (h slot (List.mem_of_getElem? hget)).advance outcomes s.world

theorem safe_after (hids : ∀ event ∈ events, event.ById) :
    (Server.after passwords events).Safe passwords := by
  induction events using List.reverseRecOn with
  | nil => exact nofun
  | append_singleton events event ih =>
    rw [Server.after, List.foldl_append]
    exact (ih fun other hother => hids other (List.mem_append_left _ hother)).step
      (hids event (List.mem_append_right _ (List.mem_singleton_self event)))

/-- An event that leaves the password of a user alone, or is the update of a request that has shown
the user's password. Then the new password is the one that will be accepted. -/
def Proved (passwords : Passwords) (s : Server) (event : Event) (id : Int)
    (password password' : String) : Prop :=
  password' = password ∨ ∃ i outcomes slot model salt newPassword,
    event = .advance i outcomes ∧ s.slots[i]? = some slot ∧ id ∈ slot.proved ∧
    slot.request = .changePassword model salt ∧ model.newPassword = some newPassword ∧
    passwords.bcryptHash salt newPassword = some password' ∧
    passwords.bcryptCheck newPassword password' = .answer true

theorem Permits.proved_of_advance {i : Nat} {outcomes : Outcomes} {slot : Slot} {id : Int}
    {password password' : String} (hget : s.slots[i]? = some slot)
    (h : Permits passwords slot.request slot.proved id password') :
    Proved passwords s (.advance i outcomes) id password password' := by
  obtain ⟨model, salt, newPassword, hrequest, hnew, _, hhash⟩ := h.request
  exact .inr ⟨i, outcomes, slot, model, salt, newPassword, rfl, hget, h.proved, hrequest, hnew,
    hhash, Passwords.check_hash hhash⟩

/-- Whatever happens at the same time, users stay, and a password is changed only by a request that
has shown it before, if the requests for new passwords give the ids of their users. -/
theorem password_proved (passwords : Passwords) (events : List Event) (event : Event)
    (hids : ∀ event ∈ events, event.ById) (row : UserRow)
    (hrow : row ∈ (Server.after passwords events).world.database.users) :
    ∃ row' ∈ ((Server.after passwords events).step passwords event).world.database.users,
      row'.id = row.id ∧ Proved passwords (Server.after passwords events) event row.id row.password
        row'.password := by
  have hsafe := @safe_after passwords events hids
  cases event with
  | arrive request => exact ⟨row, hrow, rfl, .inl rfl⟩
  | advance i outcomes =>
    unfold Server.step
    dsimp only
    split
    · exact ⟨row, hrow, rfl, .inl rfl⟩
    · rename_i slot hget
      obtain ⟨row', hrow', hid, hpassword⟩ :=
        (hsafe slot (List.mem_of_getElem? hget)).advance_users outcomes _ row hrow
      refine ⟨row', hrow', hid, ?_⟩
      rcases hpassword with hsame | hpermits
      · exact .inl hsame
      · exact hpermits.proved_of_advance hget

end Runs

/-- A digest and a hash that hide nothing. -/
def plainPasswords : Passwords where
  getBytes text := text.toList.map fun c => UInt8.ofNat c.toNat
  sha512 := some id
  gensalt _ _ := "$"
  hashpw password salt := salt ++ password
  checkpw password hashed := some (hashed = "$" ++ password)
  checkpw_hashpw _ _ _ := by simp

/-- The request for a new user. -/
def signUp (name password : String) : Event :=
  .arrive (.add ⟨none, some name, some password, none⟩ 0)

/-- The next call of a handler, which goes well. -/
def goOn (slot : Nat) : Event :=
  .advance slot .normal

/-- A user signs up and asks for a new password, which is checked. -/
def oneUser : List Event :=
  [signUp "alice" "wonderland", goOn 0, goOn 0,
    .arrive (.changePassword ⟨some 10001, none, some "wonderland", some "lookingglass"⟩ 0), goOn 1]

theorem password_proved_oneUser :
    ∃ row' ∈ ((Server.after plainPasswords oneUser).step plainPasswords
        (goOn 1)).world.database.users,
      row'.password = "$6c6f6f6b696e67676c617373" ∧
        Proved plainPasswords (Server.after plainPasswords oneUser) (goOn 1) 10001
          "$776f6e6465726c616e64" row'.password := by
  have hids : ∀ event ∈ oneUser, event.ById := by
    simp [oneUser, signUp, goOn, Event.ById, Request.ById]
  have hbefore : ⟨10001, "alice", "$776f6e6465726c616e64", 0⟩ ∈
      (Server.after plainPasswords oneUser).world.database.users := by decide +kernel
  have hafter : ∀ row' ∈ ((Server.after plainPasswords oneUser).step plainPasswords
      (goOn 1)).world.database.users, row'.password = "$6c6f6f6b696e67676c617373" := by
    decide +kernel
  obtain ⟨row', hrow', _, hproved⟩ :=
    password_proved plainPasswords oneUser (goOn 1) hids _ hbefore
  exact ⟨row', hrow', hafter row' hrow', hproved⟩

/-- A request that gives the user a new name. -/
def rename (id : Int) (newName : String) : Event :=
  .arrive (.updateInfo ⟨some id, none, some newName, none, none⟩)

/-- The second user asks for a new password, by name. After the check, the user is renamed, and the
first user gets the name. -/
def renamed : List Event :=
  [signUp "alice" "wonderland", goOn 0, goOn 0, signUp "mallory" "let me in", goOn 1, goOn 1,
    .arrive (.changePassword ⟨none, some "mallory", some "let me in", some "looks nice"⟩ 0), goOn 2,
    rename 10002 "nobody", goOn 3, goOn 3, rename 10001 "mallory", goOn 4, goOn 4]

/-- Then the first user's password is changed by a request that did not show it. -/
theorem byName_not_proved :
    ∃ row ∈ (Server.after plainPasswords renamed).world.database.users,
      ∀ row' ∈ ((Server.after plainPasswords renamed).step plainPasswords
          (goOn 2)).world.database.users, row'.id = row.id →
        ¬ Proved plainPasswords (Server.after plainPasswords renamed) (goOn 2) row.id row.password
          row'.password := by
  have hbefore : ⟨10001, "mallory", "$776f6e6465726c616e64", 0⟩ ∈
      (Server.after plainPasswords renamed).world.database.users := by decide +kernel
  have hafter : ∀ row' ∈ ((Server.after plainPasswords renamed).step plainPasswords
      (goOn 2)).world.database.users,
        row'.id = 10001 → row'.password ≠ "$776f6e6465726c616e64" := by
    decide +kernel
  have hslot : (Server.after plainPasswords renamed).slots[2]?.map Slot.proved = some [10002] := by
    decide +kernel
  refine ⟨_, hbefore, fun row' hrow' hid hproved => ?_⟩
  rcases hproved with hsame | ⟨i, outcomes, slot, _, _, _, hevent, hget, hmem, _⟩
  · exact hafter row' hrow' hid hsame
  · cases hevent
    rw [hget] at hslot
    rw [Option.some.inj hslot] at hmem
    exact absurd hmem (by decide)

end HakunaMatata.UserService
