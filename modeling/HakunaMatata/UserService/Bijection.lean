import Mathlib.Data.List.Nodup
import HakunaMatata.UserService.Model

/-!
# Every user has an authority

`InBijection` says that the ids in `t_user` are the user ids in `t_authority`, each once. The
updates change no id, whatever happens to their statements (`SameIds`). A transaction that throws
changes nothing, and `addUser` and `delUser` return only after each of their statements has changed
one row, so that what they have done to one table they have done to the other.
-/

namespace HakunaMatata.UserService

open Base

/-- The ids in the two tables are the same, each once. -/
structure InBijection (database : Database) : Prop where
  users_nodup : (database.users.map UserRow.id).Nodup
  authorities_nodup : (database.authorities.map AuthorityRow.userId).Nodup
  same : ∀ id, id ∈ database.users.map UserRow.id ↔
    id ∈ database.authorities.map AuthorityRow.userId

/-- The ids are in bijection, and below the next one. -/
structure Sound (w : State) : Prop where
  bijection : InBijection w.database
  fresh : ∀ id ∈ w.database.users.map UserRow.id, id < w.outside

/-! ## Updates -/

/-- The ids in the tables, and the next id, are the same. -/
structure SameIds (w w' : State) : Prop where
  users : w'.database.users.map UserRow.id = w.database.users.map UserRow.id
  authorities : w'.database.authorities.map AuthorityRow.userId =
    w.database.authorities.map AuthorityRow.userId
  next : w'.outside = w.outside

theorem SameIds.refl (w : State) : SameIds w w :=
  ⟨rfl, rfl, rfl⟩

theorem SameIds.trans (w w' w'' : State) (h : SameIds w w') (h' : SameIds w' w'') :
    SameIds w w'' :=
  ⟨h'.users.trans h.users, h'.authorities.trans h.authorities, h'.next.trans h.next⟩

theorem Sound.of_sameIds {w w' : State} (h : Sound w) (hids : SameIds w w') : Sound w' := by
  refine ⟨⟨?_, ?_, ?_⟩, ?_⟩
  · rw [hids.users]
    exact h.bijection.users_nodup
  · rw [hids.authorities]
    exact h.bijection.authorities_nodup
  · rw [hids.users, hids.authorities]
    exact h.bijection.same
  · rw [hids.users, hids.next]
    exact h.fresh

section Statements

variable {R : State → State → Prop} {outcome : Outcome} {sql : State → Except Exn Effect}

theorem follows_execute (hrefl : ∀ w, R w w)
    (hsql : ∀ w effect, sql w = .ok effect → R w effect.state) :
    Follows R (execute outcome sql) := by
  intro w
  have happlied : R w (applied sql w) := by
    unfold applied
    split
    · rename_i effect heffect
      exact hsql w effect heffect
    · exact hrefl w
  cases outcome with
  | normal =>
    unfold execute
    dsimp only
    split
    · rename_i effect heffect
      exact hsql w effect heffect
    · exact hrefl w
  | wrongCount rows hrows done =>
    cases done with
    | true => exact happlied
    | false => exact hrefl w
  | thrown done =>
    cases done with
    | true => exact happlied
    | false => exact hrefl w

/-- A statement that reports one row has done what its SQL says. -/
theorem execute_one {w w' : State} (h : execute outcome sql w = .ok 1 w') :
    sql w = .ok ⟨1, w'⟩ := by
  cases outcome with
  | normal =>
    unfold execute at h
    dsimp only at h
    split at h
    · rename_i effect heffect
      obtain ⟨rows, state⟩ := effect
      cases h
      exact heffect
    · cases h
  | wrongCount rows hrows done =>
    cases h
    exact absurd rfl hrows
  | thrown done => cases h

theorem follows_oneUpdated (hrefl : ∀ w, R w w)
    (htrans : ∀ w w' w'', R w w' → R w' w'' → R w w'')
    (hsql : ∀ w effect, sql w = .ok effect → R w effect.state) :
    Follows R (oneUpdated outcome sql) := by
  refine Follows.bind htrans (follows_execute hrefl hsql) fun updateCnt => ?_
  split
  · exact Follows.pure hrefl _
  · exact Follows.pure hrefl _

end Statements

theorem updateUsers_sameIds {user : User} {change : UserRow → UserRow} {w : State}
    {effect : Effect} (h : updateUsers user change w = .ok effect)
    (hchange : ∀ row, (change row).id = row.id) : SameIds w effect.state := by
  unfold updateUsers at h
  dsimp only at h
  split at h
  · cases h
    refine ⟨?_, rfl, rfl⟩
    show (w.database.users.map _).map UserRow.id = _
    rw [List.map_map]
    refine List.map_congr_left fun row _ => ?_
    rw [Function.comp_apply]
    split
    · exact hchange row
    · rfl
  · cases h

theorem updateUserRow_sameIds {user newUser : User} {w : State} {effect : Effect}
    (h : updateUserRow user newUser w = .ok effect) : SameIds w effect.state := by
  unfold updateUserRow at h
  split at h
  · cases h
  · exact updateUsers_sameIds h fun _ => rfl

theorem updatePasswordRow_sameIds {user : User} {w : State} {effect : Effect}
    (h : updatePasswordRow user w = .ok effect) : SameIds w effect.state := by
  unfold updatePasswordRow at h
  cases hpassword : user.password with
  | none =>
    rw [hpassword] at h
    cases h
  | some password =>
    rw [hpassword] at h
    exact updateUsers_sameIds h fun _ => rfl

theorem updateAuthorityRow_sameIds {authority : Authority} {w : State} {effect : Effect}
    (h : updateAuthorityRow authority w = .ok effect) : SameIds w effect.state := by
  unfold updateAuthorityRow at h
  cases htasks : authority.numTasks with
  | none =>
    rw [htasks] at h
    cases h
  | some numTasks =>
    rw [htasks] at h
    cases h
    refine ⟨rfl, ?_, rfl⟩
    show (w.database.authorities.map _).map AuthorityRow.userId = _
    rw [List.map_map]
    refine List.map_congr_left fun row _ => ?_
    rw [Function.comp_apply]
    split <;> rfl

theorem follows_updateUser (user newUser : User) (outcome : Outcome) :
    Follows SameIds (updateUser user newUser outcome) := by
  unfold updateUser
  split
  · exact Follows.pure SameIds.refl _
  · exact Follows.tryCatch SameIds.trans
      (follows_oneUpdated SameIds.refl SameIds.trans fun _ _ => updateUserRow_sameIds)
      fun _ => Follows.pure SameIds.refl _

theorem follows_updatePassword (user : User) (password hashed : Option String)
    (outcome : Outcome) : Follows SameIds (updatePassword user password hashed outcome) := by
  unfold updatePassword
  split
  · exact Follows.pure SameIds.refl _
  · cases hashed with
    | none => exact Follows.pure SameIds.refl _
    | some text =>
      exact follows_oneUpdated SameIds.refl SameIds.trans fun _ _ => updatePasswordRow_sameIds

theorem follows_updateAuthority (authority : Authority) (outcome : Outcome) :
    Follows SameIds (updateAuthority authority outcome) := by
  unfold updateAuthority
  split
  · exact Follows.pure SameIds.refl _
  · exact Follows.tryCatch SameIds.trans
      (follows_oneUpdated SameIds.refl SameIds.trans fun _ _ => updateAuthorityRow_sameIds)
      fun _ => Follows.pure SameIds.refl _

/-! ## Inserts and deletions -/

theorem insertUser_eq_ok {user : User} {w : State} {effect : Effect}
    (h : insertUser user w = .ok effect) :
    ∃ name password, effect = ⟨1, ⟨{ w.database with
      users := w.database.users ++ [⟨w.outside, name, password, 0⟩] }, w.outside + 1⟩⟩ := by
  unfold insertUser at h
  cases hname : user.name with
  | none =>
    rw [hname] at h
    cases h
  | some name =>
    cases hpassword : user.password with
    | none =>
      rw [hname, hpassword] at h
      cases h
    | some password =>
      rw [hname, hpassword] at h
      simp only [Option.elim_some] at h
      split at h
      · cases h
      · cases h
        exact ⟨name, password, rfl⟩

theorem insertAuthority_eq_ok {authority : Authority} {w : State} {effect : Effect}
    (h : insertAuthority authority w = .ok effect) :
    ∃ userId numTasks, authority.userId = some userId ∧
      effect = ⟨1, { w with database := { w.database with
        authorities := w.database.authorities ++ [⟨userId, numTasks⟩] } }⟩ := by
  unfold insertAuthority at h
  cases huser : authority.userId with
  | none =>
    rw [huser] at h
    cases h
  | some userId =>
    cases htasks : authority.numTasks with
    | none =>
      rw [huser, htasks] at h
      cases h
    | some numTasks =>
      rw [huser, htasks] at h
      simp only [Option.elim_some] at h
      split at h
      · cases h
      · cases h
        exact ⟨userId, numTasks, rfl, rfl⟩

theorem Sound.append {w : State} (h : Sound w) (user : UserRow) (authority : AuthorityRow)
    (hid : user.id = w.outside) (huser : authority.userId = w.outside) :
    InBijection ⟨w.database.users ++ [user], w.database.authorities ++ [authority]⟩ := by
  have hnew : w.outside ∉ w.database.users.map UserRow.id :=
    fun hmem => Int.lt_irrefl _ (h.fresh _ hmem)
  have hnew' : w.outside ∉ w.database.authorities.map AuthorityRow.userId :=
    fun hmem => hnew ((h.bijection.same _).mpr hmem)
  refine ⟨?_, ?_, fun id => ?_⟩
  · rw [List.map_append, List.map_singleton, hid, ← List.concat_eq_append]
    exact h.bijection.users_nodup.concat hnew
  · rw [List.map_append, List.map_singleton, huser, ← List.concat_eq_append]
    exact h.bijection.authorities_nodup.concat hnew'
  · rw [List.map_append, List.map_append, List.mem_append, List.mem_append, List.map_singleton,
      List.map_singleton, hid, huser]
    exact or_congr (h.bijection.same id) Iff.rfl

theorem InBijection.filter {database : Database} (h : InBijection database) (id : Int) :
    InBijection ⟨database.users.filter fun row => row.id ≠ id,
      database.authorities.filter fun row => row.userId ≠ id⟩ := by
  refine ⟨h.users_nodup.sublist (List.filter_sublist.map _),
    h.authorities_nodup.sublist (List.filter_sublist.map _), fun other => ?_⟩
  have hsame := h.same other
  simp only [List.mem_map, List.mem_filter, decide_eq_true_eq] at hsame ⊢
  constructor
  · rintro ⟨row, ⟨hrow, hne⟩, rfl⟩
    obtain ⟨authority, hauthority, heq⟩ := hsame.mp ⟨row, hrow, rfl⟩
    exact ⟨authority, ⟨hauthority, heq ▸ hne⟩, heq⟩
  · rintro ⟨row, ⟨hrow, hne⟩, rfl⟩
    obtain ⟨user, huser, heq⟩ := hsame.mpr ⟨row, hrow, rfl⟩
    exact ⟨user, ⟨huser, heq ▸ hne⟩, heq⟩

/-! ## Transactions -/

/-- The next id never falls. -/
def NextLe (w w' : State) : Prop :=
  w.outside ≤ w'.outside

theorem NextLe.refl (w : State) : NextLe w w :=
  Int.le_refl _

theorem NextLe.trans (w w' w'' : State) (h : NextLe w w') (h' : NextLe w' w'') : NextLe w w'' :=
  Int.le_trans h h'

/-- A method in a transaction keeps the bijection if it does so whenever it returns. -/
theorem Sound.transactional {body : Service Int} {w : State} (h : Sound w)
    (hnext : Follows NextLe body) (hbody : ∀ result w', body w = .ok result w' → Sound w') :
    Sound (left (transactional none body w)) := by
  have houtside : w.outside ≤ (left (Base.transactional none body w)).outside := by
    rw [left_transactional_outside]
    exact hnext w
  cases hcall : Base.transactional none body w with
  | ok result w' => exact hbody result w' (transactional_returns.mp hcall).1
  | error e w' =>
    rw [hcall] at houtside
    have hdatabase := transactional_throws hcall
    refine ⟨?_, ?_⟩
    · show InBijection w'.database
      rw [hdatabase]
      exact h.bijection
    · show ∀ id ∈ w'.database.users.map UserRow.id, id < w'.outside
      rw [hdatabase]
      exact fun id hid => Int.lt_of_lt_of_le (h.fresh id hid) houtside

section AddUser

variable {user : User} {first second : Outcome} {w w' : State} {result : Int}

theorem addUserRow_one {added : Nat × User} (h : addUserRow first user w = .ok added w')
    (hone : added.1 = 1) : added.2.id = some w.outside ∧ ∃ name password,
      w' = ⟨{ w.database with users := w.database.users ++ [⟨w.outside, name, password, 0⟩] },
        w.outside + 1⟩ := by
  obtain ⟨_, _, hget, h⟩ := bind_returns.mp h
  cases hget
  obtain ⟨rows, next, hexecute, h⟩ := bind_returns.mp h
  cases h
  obtain rfl : rows = 1 := hone
  obtain ⟨name, password, heffect⟩ := insertUser_eq_ok (execute_one hexecute)
  cases heffect
  exact ⟨rfl, name, password, rfl⟩

theorem Sound.addRows (hw : Sound w) (h : addRows user first second w = .ok result w') :
    Sound w' := by
  obtain ⟨added, w₁, hadd, h⟩ := bind_returns.mp h
  split at h
  · cases h
  · rename_i hone
    rw [ne_eq, not_not] at hone
    obtain ⟨hid, name, password, rfl⟩ := addUserRow_one hadd hone
    obtain ⟨addCnt, w₂, hexecute, h⟩ := bind_returns.mp h
    split at h
    · cases h
    · rename_i hcnt
      rw [ne_eq, not_not] at hcnt
      subst hcnt
      obtain ⟨userId, numTasks, huser, heffect⟩ := insertAuthority_eq_ok (execute_one hexecute)
      cases heffect
      cases h
      obtain rfl : userId = w.outside := Option.some.inj (huser.symm.trans hid)
      refine ⟨hw.append _ _ rfl rfl, fun id hmem => ?_⟩
      show id < w.outside + 1
      rw [List.map_append, List.mem_append] at hmem
      rcases hmem with hold | hnew
      · exact Int.lt_add_one_of_le (Int.le_of_lt (hw.fresh id hold))
      · obtain rfl := List.mem_singleton.mp hnew
        exact Int.lt_add_one_of_le (Int.le_refl _)

theorem insertUser_nextLe {effect : Effect} (h : insertUser user w = .ok effect) :
    NextLe w effect.state := by
  obtain ⟨name, password, rfl⟩ := insertUser_eq_ok h
  exact Int.le_add_one (Int.le_refl _)

theorem insertAuthority_nextLe {authority : Authority} {effect : Effect}
    (h : insertAuthority authority w = .ok effect) : NextLe w effect.state := by
  obtain ⟨userId, numTasks, _, rfl⟩ := insertAuthority_eq_ok h
  exact Int.le_refl _

theorem follows_addRows : Follows NextLe (UserService.addRows user first second) := by
  refine Follows.bind NextLe.trans ?_ fun added => ?_
  · refine Follows.bind NextLe.trans NextLe.refl fun _ => ?_
    exact Follows.bind NextLe.trans (follows_execute NextLe.refl fun _ _ => insertUser_nextLe)
      fun _ => Follows.pure NextLe.refl _
  · split
    · exact Follows.throw NextLe.refl _
    · refine Follows.bind NextLe.trans
        (follows_execute NextLe.refl fun _ _ => insertAuthority_nextLe) fun addCnt => ?_
      split
      · exact Follows.throw NextLe.refl _
      · exact Follows.pure NextLe.refl _

theorem Sound.addUser (hw : Sound w) (user : User) (hashed : Option String)
    (first second : Outcome) : Sound (left (addUser user hashed first second w)) := by
  refine hw.transactional ?_ fun result w' h => ?_
  · unfold addUserBody
    split
    · exact Follows.pure NextLe.refl _
    · split
      · exact Follows.pure NextLe.refl _
      · cases hashed with
        | none => exact Follows.pure NextLe.refl _
        | some text => exact follows_addRows
  · unfold addUserBody at h
    split at h
    · cases h
      exact hw
    · split at h
      · cases h
        exact hw
      · cases hashed with
        | none =>
          cases h
          exact hw
        | some text => exact hw.addRows h

end AddUser

section DelUser

variable {user : User} {first second : Outcome} {w w' : State} {result : Int}

theorem deleteUser_eq_ok {id : Int} {effect : Effect} (hid : user.id = some id)
    (h : deleteUser user w = .ok effect) :
    effect.state = { w with database := { w.database with
      users := w.database.users.filter fun row => row.id ≠ id } } := by
  have hselects : ∀ row, (!user.selects row) = decide (row.id ≠ id) := fun row => by
    simp [User.selects, hid]
  cases h
  simp only [hselects]

theorem deleteAuthority_one {userId : Option Int}
    (h : deleteAuthority userId w = .ok ⟨1, w'⟩) :
    ∃ id, userId = some id ∧ w' = { w with database := { w.database with
      authorities := w.database.authorities.filter fun row => row.userId ≠ id } } := by
  cases userId with
  | none =>
    have hnone : w.database.authorities.countP (ofUser none) = 0 :=
      List.countP_eq_zero.mpr fun row _ => by simp [ofUser]
    unfold deleteAuthority at h
    rw [hnone] at h
    cases h
  | some id =>
    have hselects : ∀ row, (!ofUser (some id) row) = decide (row.userId ≠ id) := fun row => by
      simp [ofUser, eq_comm]
    injection h with h
    injection h with _ hstate
    refine ⟨id, rfl, ?_⟩
    rw [← hstate]
    simp only [hselects]

/-- The deletions return only after the rows of one id are gone from both tables. -/
theorem Sound.deleteRows (hw : Sound w) (h : deleteRows user first second w = .ok result w') :
    Sound w' := by
  obtain ⟨delCnt, w₁, hexecute, h⟩ := bind_returns.mp h
  split at h
  · cases h
  · rename_i hone
    rw [ne_eq, not_not] at hone
    subst hone
    obtain ⟨delCnt', w₂, hexecute', h⟩ := bind_returns.mp h
    split at h
    · cases h
    · rename_i hone'
      rw [ne_eq, not_not] at hone'
      subst hone'
      cases h
      obtain ⟨id, hid, rfl⟩ := deleteAuthority_one (execute_one hexecute')
      have hstate := deleteUser_eq_ok hid (execute_one hexecute)
      dsimp only at hstate
      subst hstate
      refine ⟨hw.bijection.filter id, fun other hother => hw.fresh other ?_⟩
      exact (List.filter_sublist.map _).subset hother

theorem deleteUser_nextLe {effect : Effect} (h : deleteUser user w = .ok effect) :
    NextLe w effect.state := by
  cases h
  exact Int.le_refl _

theorem deleteAuthority_nextLe {userId : Option Int} {effect : Effect}
    (h : deleteAuthority userId w = .ok effect) : NextLe w effect.state := by
  cases h
  exact Int.le_refl _

theorem follows_deleteRows : Follows NextLe (UserService.deleteRows user first second) := by
  refine Follows.bind NextLe.trans (follows_execute NextLe.refl fun _ _ => deleteUser_nextLe)
    fun delCnt => ?_
  split
  · exact Follows.throw NextLe.refl _
  · refine Follows.bind NextLe.trans
      (follows_execute NextLe.refl fun _ _ => deleteAuthority_nextLe) fun delCnt' => ?_
    split
    · exact Follows.throw NextLe.refl _
    · exact Follows.pure NextLe.refl _

theorem left_queryUser (query : QueryOutcome) (user : User) (w : State) :
    left (queryUser query user w) = w := by
  cases query <;> rfl

theorem left_getFirst (users : List User) (w : State) : left (getFirst users w) = w := by
  cases users <;> rfl

/-- The queries change nothing. -/
theorem follows_of_left {α : Type} {x : Service α} (h : ∀ w, left (x w) = w) :
    Follows NextLe x := by
  intro w
  rw [h]
  exact NextLe.refl w

theorem Sound.delUser (hw : Sound w) (user : User) (query : QueryOutcome)
    (first second : Outcome) : Sound (left (delUser user query first second w)) := by
  refine hw.transactional ?_ fun result w' h => ?_
  · refine Follows.bind NextLe.trans (follows_of_left (left_queryUser query user))
      fun userList => ?_
    split
    · exact Follows.pure NextLe.refl _
    · exact Follows.bind NextLe.trans (follows_of_left (left_getFirst userList))
        fun _ => follows_deleteRows
  · obtain ⟨userList, w₁, hquery, hrest⟩ := bind_returns.mp h
    have hsame := left_queryUser query user w
    rw [hquery] at hsame
    obtain rfl : w₁ = w := hsame
    split at hrest
    · cases hrest
      exact hw
    · obtain ⟨found, w₂, hfirst, hdelete⟩ := bind_returns.mp hrest
      have hsame := left_getFirst userList w₁
      rw [hfirst] at hsame
      obtain rfl : w₂ = w₁ := hsame
      exact hw.deleteRows hdelete

end DelUser

/-! ## Histories -/

theorem Sound.step {w w' : State} {op : Op} (hw : Sound w) (h : step w op = .ok w') :
    Sound w' := by
  cases h
  cases op with
  | addUser user hashed first second => exact hw.addUser user hashed first second
  | delUser user query first second => exact hw.delUser user query first second
  | updateUser user newUser outcome =>
    exact hw.of_sameIds (follows_updateUser user newUser outcome w)
  | updatePassword user password hashed outcome =>
    exact hw.of_sameIds (follows_updatePassword user password hashed outcome w)
  | updateAuthority authority outcome =>
    exact hw.of_sameIds (follows_updateAuthority authority outcome w)

theorem sound_init : Sound State.init :=
  ⟨⟨List.nodup_nil, List.nodup_nil, fun _ => Iff.rfl⟩, fun _ h => absurd h List.not_mem_nil⟩

/-- After every call of every history, the ids of the users are those of the authorities, each
once. -/
theorem users_authorities_in_bijection (ops : List Op) :
    Throughout step (fun w => InBijection w.database) State.init ops :=
  (throughout_of_step (fun _ _ _ hw h => hw.step h) sound_init ops).mono fun _ hw => hw.bijection

/-- A user is added, and the insert of the authority of a second one reports no row. -/
example : (Base.left ((Op.addUser ⟨none, some "mallory", some "87654321", none⟩ (some "hash")
    .normal (.wrongCount 0 (by decide) false)).call
      (Base.left ((Op.addUser ⟨none, some "muggle", some "12345678", none⟩ (some "hash")
        .normal .normal).call State.init)))) =
    ⟨⟨[⟨10001, "muggle", "hash", 0⟩], [⟨10001, 1⟩]⟩, 10003⟩ := by decide +kernel

end HakunaMatata.UserService
