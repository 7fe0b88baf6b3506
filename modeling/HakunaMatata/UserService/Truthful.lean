import Mathlib.Data.List.Nodup
import HakunaMatata.UserService.UpdateInfo

/-!
# When `/update/info` answers rightly

On tables with their keys, the update of `t_user` changes one row or nothing, and what stands in the
tables behind both updates is known. `truthful_iff` says for which requests and which failures of
the statements the answer is right: `Answerable`.
-/

namespace HakunaMatata.UserService

open Base

/-- The keys of `t_user`. -/
structure Keys (database : Database) : Prop where
  ids : (database.users.map UserRow.id).Nodup
  names : (database.users.map UserRow.name).Nodup

/-! ## The statements on tables with keys -/

section Tables

variable {request : UserUpdateModel} {first second : Outcome} {row other : UserRow} {w : State}

theorem Keys.users (hkeys : Keys w.database) : w.database.users.Nodup :=
  hkeys.ids.of_map

theorem Keys.eq_of_id (hkeys : Keys w.database) (hrow : row ∈ w.database.users)
    (hother : other ∈ w.database.users) (hid : other.id = row.id) : other = row :=
  List.inj_on_of_nodup_map hkeys.ids hother hrow hid

theorem Keys.eq_of_name (hkeys : Keys w.database) (hrow : row ∈ w.database.users)
    (hother : other ∈ w.database.users) (hname : other.name = row.name) : other = row :=
  List.inj_on_of_nodup_map hkeys.names hother hrow hname

theorem Keys.countP_id (hkeys : Keys w.database) (hrow : row ∈ w.database.users) :
    w.database.users.countP (fun other => other.id = row.id) = 1 := by
  have hcount := List.count_eq_one_of_mem hkeys.ids (List.mem_map_of_mem hrow)
  rwa [List.count, List.countP_map] at hcount

/-- No other user has the name that the row gets, or keeps. -/
theorem name_ne_change (hkeys : Keys w.database) (hrow : row ∈ w.database.users)
    (hfree : ∀ name ∈ request.newName, ∀ other ∈ w.database.users, other.name = name →
      other.id = row.id) (hother : other ∈ w.database.users) (hne : other.id ≠ row.id) :
    other.name ≠ (request.change row).name := by
  intro heq
  rw [UserUpdateModel.change] at heq
  cases hname : request.newName with
  | none =>
    rw [hname] at heq
    exact hne (congrArg UserRow.id (hkeys.eq_of_name hrow hother heq))
  | some name =>
    rw [hname] at heq
    exact hne (hfree name hname other hother heq)

/-- The names stay unique if no other user has the new one. -/
theorem names_nodup_iff (hkeys : Keys w.database) (hrow : row ∈ w.database.users) :
    ((changeUser request row.id w).database.users.map UserRow.name).Nodup ↔
      ∀ name ∈ request.newName, ∀ other ∈ w.database.users, other.name = name →
        other.id = row.id := by
  show ((w.database.users.map _).map UserRow.name).Nodup ↔ _
  rw [List.map_map, List.nodup_map_iff_inj_on hkeys.users]
  constructor
  · intro hinj name hname other hother heq
    by_contra hne
    have hsame := hinj other hother row hrow ?_
    · exact hne (hsame ▸ rfl)
    · rw [Function.comp_apply, Function.comp_apply, if_neg hne, if_pos rfl, heq,
        UserUpdateModel.change, hname, Option.getD_some]
  · intro hfree a ha b hb heq
    rw [Function.comp_apply, Function.comp_apply] at heq
    -- a user that is not the changed one keeps a name that the changed one does not get
    split at heq
    · rename_i hida
      obtain rfl := hkeys.eq_of_id hrow ha hida
      split at heq
      · rename_i hidb
        exact (hkeys.eq_of_id ha hb hidb).symm
      · rename_i hidb
        exact absurd heq.symm (name_ne_change hkeys ha hfree hb hidb)
    · rename_i hida
      split at heq
      · rename_i hidb
        obtain rfl := hkeys.eq_of_id hrow hb hidb
        exact absurd heq (name_ne_change hkeys hb hfree ha hida)
      · exact hkeys.eq_of_name hb ha heq

/-- With a column to set, the unique index on the names decides. -/
theorem updateUserRow_of_columns (hkeys : Keys w.database) (hrow : row ∈ w.database.users)
    (h : ¬ (request.newName = none ∧ intStatus request.newStatus = none)) :
    updateUserRow row.user request.userInfo w =
      if ((changeUser request row.id w).database.users.map UserRow.name).Nodup then
        .ok ⟨1, changeUser request row.id w⟩
      else .error .duplicateKey := by
  have hcolumns : ¬ (request.userInfo.name = none ∧ request.userInfo.status = none) := h
  have hselects : row.user.selects = fun other : UserRow => decide (other.id = row.id) := rfl
  rw [updateUserRow, if_neg hcolumns, updateUsers, hselects, hkeys.countP_id hrow]
  simp only [decide_eq_true_eq]
  rfl

/-- An update that is accepted changes the row of the user. -/
theorem updateUserRow_of_accepts (hkeys : Keys w.database) (hrow : row ∈ w.database.users)
    (h : Accepts request row w.database) :
    updateUserRow row.user request.userInfo w = .ok ⟨1, changeUser request row.id w⟩ := by
  have hcolumns : ¬ (request.newName = none ∧ intStatus request.newStatus = none) :=
    fun hnone => h.columns.elim (absurd hnone.1) (absurd hnone.2)
  rw [updateUserRow_of_columns hkeys hrow hcolumns]
  exact if_pos ((names_nodup_iff hkeys hrow).mpr h.free)

/-- A name that another user has, or no column to set. -/
theorem updateUserRow_of_not (hkeys : Keys w.database) (hrow : row ∈ w.database.users)
    (hgood : request.newName.any badName = false) (h : ¬ Accepts request row w.database) :
    ∃ e, updateUserRow row.user request.userInfo w = .error e := by
  by_cases hcolumns : request.newName = none ∧ intStatus request.newStatus = none
  · exact ⟨.badSql, if_pos hcolumns⟩
  · have hnames : ¬ ((changeUser request row.id w).database.users.map UserRow.name).Nodup := by
      rw [names_nodup_iff hkeys hrow]
      intro hfree
      refine h ⟨fun name hname => ?_, hfree, not_and_or.mp hcolumns⟩
      rw [hname] at hgood
      exact hgood
    rw [updateUserRow_of_columns hkeys hrow hcolumns]
    exact ⟨.duplicateKey, if_neg hnames⟩

theorem Accepts.not_bad (h : Accepts request row w.database) :
    request.newName.any badName = false := by
  cases hname : request.newName with
  | none => rfl
  | some name => exact h.good name hname

theorem afterUser_eq (hkeys : Keys w.database) (hrow : row ∈ w.database.users)
    (h : Accepts request row w.database) (hfirst : first.executed = true) :
    afterUser request first row w = changeUser request row.id w := by
  rw [afterUser, h.not_bad, if_neg Bool.false_ne_true]
  exact ran_of_ok hfirst (updateUserRow_of_accepts hkeys hrow h)

theorem afterUser_eq_self (hkeys : Keys w.database) (hrow : row ∈ w.database.users)
    (h : ¬ (Accepts request row w.database ∧ first.executed = true)) :
    afterUser request first row w = w := by
  rw [afterUser]
  split
  · rfl
  · rename_i hgood
    cases hfirst : first.executed with
    | false => exact ran_of_not hfirst
    | true =>
      obtain ⟨e, herror⟩ := updateUserRow_of_not hkeys hrow (Bool.eq_false_iff.mpr hgood)
        fun haccepts => h ⟨haccepts, hfirst⟩
      exact ran_of_error herror

theorem updateAuthorityRow_eq (id numTasks : Int) (w : State) : ∃ rows,
    updateAuthorityRow ⟨some id, some numTasks⟩ w = .ok ⟨rows, changeTasks numTasks id w⟩ := by
  refine ⟨w.database.authorities.countP (ofUser (some id)), ?_⟩
  have hmap : ∀ authority : AuthorityRow, (ofUser (some id) authority = true) ↔
      authority.userId = id := by
    intro authority
    rw [ofUser, decide_eq_true_eq, Option.some.injEq]
    exact eq_comm
  simp only [updateAuthorityRow, Option.elim_some, changeTasks, hmap]

theorem afterTasks_eq {numTasks : Int} (h : request.newNumTasks = some numTasks)
    (hsecond : second.executed = true) :
    afterTasks request second row w = changeTasks numTasks row.id w := by
  obtain ⟨rows, hsql⟩ := updateAuthorityRow_eq row.id numTasks w
  rw [afterTasks, h]
  exact ran_of_ok hsecond hsql

theorem afterTasks_eq_self (h : ¬ (request.newNumTasks ≠ none ∧ second.executed = true)) :
    afterTasks request second row w = w := by
  rw [afterTasks]
  cases hnum : request.newNumTasks with
  | none => rfl
  | some numTasks =>
    have hsecond : second.executed = false :=
      Bool.eq_false_iff.mpr fun htrue => h ⟨by rw [hnum]; exact nofun, htrue⟩
    exact ran_of_not hsecond

/-- The answer is a success if the update of `t_user` is accepted and reported. -/
theorem succeeds_iff {query : QueryOutcome} (first second : Outcome) (hkeys : Keys w.database)
    (h : found request query w = some row) :
    Succeeds (updateUserInfo request query first second w) ↔
      Accepts request row w.database ∧ first = .normal := by
  have hrow := mem_of_filter (found_eq_some h).2
  obtain ⟨response, hcall, herr⟩ := updateUserInfo_found first second h
  have hsucceeds : Succeeds (updateUserInfo request query first second w) ↔
      response.errorId = ok := by
    rw [hcall]
    exact ⟨fun ⟨_, _, heq, herrorId⟩ => by cases heq; exact herrorId,
      fun herrorId => ⟨response, _, rfl, herrorId⟩⟩
  rw [hsucceeds, herr]
  constructor
  · rintro ⟨hgood, hfirst, w', hsql⟩
    refine ⟨?_, hfirst⟩
    by_contra hnot
    obtain ⟨e, herror⟩ := updateUserRow_of_not hkeys hrow hgood hnot
    rw [herror] at hsql
    cases hsql
  · rintro ⟨haccepts, hfirst⟩
    exact ⟨haccepts.not_bad, hfirst, _, updateUserRow_of_accepts hkeys hrow haccepts⟩

end Tables

/-! ## When the answer is right -/

/-- The requests and outcomes of the statements that the handler answers rightly.

A request that fails is one that was not granted before, and no statement that has been executed
has changed a value. A request that succeeds asks for no unknown status, and the task count that
it asks for is that of the user, or there is a row for it and its statement has been executed. -/
structure Answerable (request : UserUpdateModel) (query : QueryOutcome) (first second : Outcome)
    (w : State) : Prop where
  missed : found request query w = none → ¬ EveryChangeApplied request w w
  reported : ∀ row, found request query w = some row → Accepts request row w.database →
    first = .normal → (request.newStatus ≠ none → intStatus request.newStatus ≠ none) ∧
      ∀ numTasks ∈ request.newNumTasks, ∃ authority ∈ w.database.authorities,
        authority.userId = row.id ∧ (second.executed = true ∨ authority.numTasks = numTasks)
  refused : ∀ row, found request query w = some row →
    ¬ (Accepts request row w.database ∧ first = .normal) →
    ¬ Granted request row.id w.database ∧
      (Accepts request row w.database → first.executed = true → request.change row = row) ∧
      (second.executed = true → ∀ numTasks ∈ request.newNumTasks,
        ∀ authority ∈ w.database.authorities, authority.userId = row.id →
          authority.numTasks = numTasks)

section Answers

variable {request : UserUpdateModel} {query : QueryOutcome} {first second : Outcome}
  {row : UserRow} {w w' : State}

theorem left_of_found (h : found request query w = some row) :
    left (updateUserInfo request query first second w) =
      afterTasks request second row (afterUser request first row w) := by
  obtain ⟨response, hcall, -⟩ := updateUserInfo_found first second h
  rw [hcall]
  rfl

theorem everyChangeApplied_iff (h : found request query w = some row) :
    EveryChangeApplied request w w' ↔ Granted request row.id w'.database := by
  have hfilter := (found_eq_some h).2
  constructor
  · rintro ⟨other, hother, hgranted⟩
    rw [hfilter] at hother
    cases hother
    exact hgranted
  · exact fun hgranted => ⟨row, hfilter, hgranted⟩

theorem afterTasks_users : (afterTasks request second row w).database.users =
    w.database.users := by
  by_cases h : request.newNumTasks ≠ none ∧ second.executed = true
  · obtain ⟨numTasks, hnum⟩ := Option.ne_none_iff_exists'.mp h.1
    rw [afterTasks_eq hnum h.2]
    rfl
  · rw [afterTasks_eq_self h]

theorem afterUser_authorities (request : UserUpdateModel) (first : Outcome)
    (hkeys : Keys w.database) (hrow : row ∈ w.database.users) :
    (afterUser request first row w).database.authorities = w.database.authorities := by
  by_cases h : Accepts request row w.database ∧ first.executed = true
  · rw [afterUser_eq hkeys hrow h.1 h.2]
    rfl
  · rw [afterUser_eq_self hkeys hrow h]

/-- The user has the requested task count behind the update of `t_authority`. -/
theorem afterTasks_granted {numTasks : Int} (h : request.newNumTasks = some numTasks) :
    (∃ authority ∈ (afterTasks request second row w).database.authorities,
      authority.userId = row.id ∧ authority.numTasks = numTasks) ↔
    ∃ authority ∈ w.database.authorities, authority.userId = row.id ∧
      (second.executed = true ∨ authority.numTasks = numTasks) := by
  by_cases hsecond : second.executed = true
  · rw [afterTasks_eq h hsecond]
    constructor
    · rintro ⟨authority, hmem, hid, -⟩
      obtain ⟨old, hold, rfl⟩ := List.mem_map.mp hmem
      refine ⟨old, hold, ?_, .inl hsecond⟩
      split at hid
      · assumption
      · exact hid
    · rintro ⟨authority, hmem, hid, -⟩
      refine ⟨{ authority with numTasks := numTasks }, List.mem_map.mpr ⟨authority, hmem, ?_⟩,
        hid, rfl⟩
      rw [if_pos hid]
  · rw [afterTasks_eq_self fun hboth => hsecond hboth.2]
    simp only [hsecond, Bool.false_eq_true, false_or]

/-- The user has the requested name and status behind an update of `t_user`, unless no user can
have that status. -/
theorem changeUser_granted (hrow : row ∈ w.database.users) :
    (∃ changed ∈ (changeUser request row.id w).database.users, changed.id = row.id ∧
      (∀ name ∈ request.newName, changed.name = name) ∧
      ∀ status ∈ request.newStatus, intStatus (some status) = some changed.status) ↔
    (request.newStatus ≠ none → intStatus request.newStatus ≠ none) := by
  constructor
  · rintro ⟨changed, -, -, -, hstatus⟩ hsome
    obtain ⟨status, heq⟩ := Option.ne_none_iff_exists'.mp hsome
    rw [heq, hstatus status heq]
    exact nofun
  · intro hknown
    refine ⟨request.change row, List.mem_map.mpr ⟨row, hrow, if_pos rfl⟩, rfl, ?_, ?_⟩
    · intro name hname
      rw [UserUpdateModel.change, hname]
      rfl
    · intro status hstatus
      obtain ⟨value, hvalue⟩ := Option.ne_none_iff_exists'.mp
        (hknown (by rw [hstatus]; exact nofun))
      have hchange : (request.change row).status = value := by
        rw [UserUpdateModel.change, hvalue]
        rfl
      rw [hchange, ← hvalue, hstatus]

/-- Changing some entries of a list keeps it if each of them stays the same. -/
theorem map_ite_eq_self {α : Type} (p : α → Prop) [DecidablePred p] (f : α → α) (l : List α) :
    (l.map fun a => if p a then f a else a) = l ↔ ∀ a ∈ l, p a → f a = a := by
  conv_lhs => rhs; rw [← List.map_id l]
  rw [List.map_inj_left]
  refine forall₂_congr fun a _ => ?_
  rw [id, ite_eq_right_iff]

theorem changeUser_eq_self_iff (hkeys : Keys w.database) (hrow : row ∈ w.database.users) :
    (changeUser request row.id w).database.users = w.database.users ↔
      request.change row = row := by
  refine (map_ite_eq_self (fun other : UserRow => other.id = row.id) request.change
    w.database.users).trans ⟨fun h => h row hrow rfl, fun h other hother hid => ?_⟩
  rw [hkeys.eq_of_id hrow hother hid, h]

theorem changeTasks_eq_self_iff (numTasks id : Int) :
    (changeTasks numTasks id w).database.authorities = w.database.authorities ↔
      ∀ authority ∈ w.database.authorities, authority.userId = id →
        authority.numTasks = numTasks := by
  refine (map_ite_eq_self (fun authority : AuthorityRow => authority.userId = id)
    (fun authority => { authority with numTasks := numTasks }) w.database.authorities).trans ?_
  refine forall₃_congr fun authority _ _ => ?_
  rw [AuthorityRow.mk.injEq]
  exact ⟨fun h => h.2.symm, fun h => ⟨rfl, h.symm⟩⟩

/-- The tables are as before if each statement that was executed has found its values there. -/
theorem kept_iff (hkeys : Keys w.database) (hrow : row ∈ w.database.users) :
    (afterTasks request second row (afterUser request first row w)).database = w.database ↔
      (Accepts request row w.database → first.executed = true → request.change row = row) ∧
      (second.executed = true → ∀ numTasks ∈ request.newNumTasks,
        ∀ authority ∈ w.database.authorities, authority.userId = row.id →
          authority.numTasks = numTasks) := by
  have husers : (afterUser request first row w).database.users = w.database.users ↔
      (Accepts request row w.database → first.executed = true → request.change row = row) := by
    by_cases h : Accepts request row w.database ∧ first.executed = true
    · rw [afterUser_eq hkeys hrow h.1 h.2, changeUser_eq_self_iff hkeys hrow]
      exact ⟨fun heq _ _ => heq, fun heq => heq h.1 h.2⟩
    · rw [afterUser_eq_self hkeys hrow h]
      exact ⟨fun _ haccepts hfirst => absurd ⟨haccepts, hfirst⟩ h, fun _ => rfl⟩
  have hauthorities : (afterTasks request second row
      (afterUser request first row w)).database.authorities = w.database.authorities ↔
      (second.executed = true → ∀ numTasks ∈ request.newNumTasks,
        ∀ authority ∈ w.database.authorities, authority.userId = row.id →
          authority.numTasks = numTasks) := by
    rw [← afterUser_authorities request first hkeys hrow]
    by_cases h : request.newNumTasks ≠ none ∧ second.executed = true
    · obtain ⟨numTasks, hnum⟩ := Option.ne_none_iff_exists'.mp h.1
      rw [afterTasks_eq hnum h.2, changeTasks_eq_self_iff, hnum]
      exact ⟨fun hsame _ _ heq => by cases heq; exact hsame, fun hsame => hsame h.2 numTasks rfl⟩
    · rw [afterTasks_eq_self h]
      exact ⟨fun _ hsecond numTasks hnum => absurd ⟨by rw [hnum]; exact nofun, hsecond⟩ h,
        fun _ => rfl⟩
  rw [← husers, ← hauthorities]
  constructor
  · intro heq
    refine ⟨?_, congrArg Database.authorities heq⟩
    rw [← afterTasks_users, heq]
  · rintro ⟨hsameUsers, hsameAuthorities⟩
    rw [← afterTasks_users] at hsameUsers
    exact congrArg₂ Database.mk hsameUsers hsameAuthorities

/-- The requested changes are there after an update of `t_user` that was accepted. -/
theorem granted_iff_of_accepts (hkeys : Keys w.database) (hrow : row ∈ w.database.users)
    (haccepts : Accepts request row w.database) (hfirst : first = .normal) :
    Granted request row.id
        (afterTasks request second row (afterUser request first row w)).database ↔
      (request.newStatus ≠ none → intStatus request.newStatus ≠ none) ∧
      ∀ numTasks ∈ request.newNumTasks, ∃ authority ∈ w.database.authorities,
        authority.userId = row.id ∧ (second.executed = true ∨ authority.numTasks = numTasks) := by
  rw [afterUser_eq hkeys hrow haccepts (hfirst ▸ rfl), ← changeUser_granted hrow]
  constructor
  · rintro ⟨huser, hauthority⟩
    rw [afterTasks_users] at huser
    exact ⟨huser, fun numTasks hnum =>
      (afterTasks_granted (w := changeUser request row.id w) hnum).mp (hauthority numTasks hnum)⟩
  · rintro ⟨huser, hauthority⟩
    refine ⟨?_, fun numTasks hnum =>
      (afterTasks_granted (w := changeUser request row.id w) hnum).mpr (hauthority numTasks hnum)⟩
    rw [afterTasks_users]
    exact huser

end Answers

/-- The answer to `/update/info` is right for exactly the requests and the failures of statements
that `Answerable` describes. -/
theorem truthful_iff (request : UserUpdateModel) (query : QueryOutcome) (first second : Outcome)
    (w : State) (hkeys : Keys w.database) :
    Truthful request query first second w ↔ Answerable request query first second w := by
  constructor
  · rintro ⟨hsuccess, hfailure, -⟩
    refine ⟨fun hmissed => ?_, fun row hfound haccepts hfirst => ?_, fun row hfound hnot => ?_⟩
    · obtain ⟨hleft, hfails⟩ := updateUserInfo_missed first second hmissed
      rw [hleft] at hsuccess
      exact fun happlied => hfails (hsuccess.mpr happlied)
    · have hrow := mem_of_filter (found_eq_some hfound).2
      have happlied := hsuccess.mp ((succeeds_iff first second hkeys hfound).mpr ⟨haccepts, hfirst⟩)
      rw [everyChangeApplied_iff hfound, left_of_found hfound] at happlied
      exact (granted_iff_of_accepts hkeys hrow haccepts hfirst).mp happlied
    · have hrow := mem_of_filter (found_eq_some hfound).2
      have hfails := mt (succeeds_iff first second hkeys hfound).mp hnot
      have hkept := hfailure hfails
      have hgranted := mt hsuccess.mpr hfails
      rw [everyChangeApplied_iff hfound, hkept] at hgranted
      rw [left_of_found hfound] at hkept
      exact ⟨hgranted, (kept_iff hkeys hrow).mp hkept⟩
  · intro h
    cases hfound : found request query w with
    | none =>
      obtain ⟨hleft, hfails⟩ := updateUserInfo_missed first second hfound
      refine ⟨?_, fun _ => by rw [hleft], ?_⟩
      · rw [hleft]
        exact iff_of_false hfails (h.missed hfound)
      · rintro - - - rfl - - ⟨row, hfilter, -⟩
        rw [found_of_filter hfilter] at hfound
        cases hfound
    | some row =>
      have hrow := mem_of_filter (found_eq_some hfound).2
      by_cases hreported : Accepts request row w.database ∧ first = .normal
      · have hsucceeds := (succeeds_iff first second hkeys hfound).mpr hreported
        refine ⟨iff_of_true hsucceeds ?_, absurd hsucceeds, fun _ _ _ _ _ _ _ => hsucceeds⟩
        rw [everyChangeApplied_iff hfound, left_of_found hfound,
          granted_iff_of_accepts hkeys hrow hreported.1 hreported.2]
        exact h.reported row hfound hreported.1 hreported.2
      · obtain ⟨hgranted, hvalues⟩ := h.refused row hfound hreported
        have hfails := mt (succeeds_iff first second hkeys hfound).mp hreported
        have hkept := (kept_iff hkeys hrow).mpr hvalues
        rw [← left_of_found hfound] at hkept
        refine ⟨iff_of_false hfails ?_, fun _ => hkept, ?_⟩
        · rw [everyChangeApplied_iff hfound, hkept]
          exact hgranted
        · -- executed, and the count was the requested one before: the request was granted
          rintro hname hstatus - - - rfl ⟨other, hother, hauthority⟩
          rw [(found_eq_some hfound).2] at hother
          cases hother
          obtain ⟨authority, hmem, hid⟩ := List.mem_map.mp hauthority
          refine absurd ⟨⟨row, hrow, rfl, ?_, ?_⟩, fun numTasks hnum => ?_⟩ hgranted
          · rw [hname]
            exact nofun
          · rw [hstatus]
            exact nofun
          · exact ⟨authority, hmem, hid, hvalues.2 rfl numTasks hnum authority hmem hid⟩

/-- The tables of the tests. -/
def testUsers : State :=
  ⟨⟨[⟨10001, "test_user1", "123456abcABC", 0⟩, ⟨10002, "test_user2", "123456abcABC", 1⟩],
    [⟨10001, 1⟩, ⟨10002, 100⟩]⟩, 10003⟩

theorem testUsers_keys : Keys testUsers.database :=
  ⟨by decide, by decide⟩

/-- A new name and a new task count for the first user. -/
def renameFirst : UserUpdateModel :=
  ⟨some 10001, none, some "user1", none, some 5⟩

/-- A new task count for the first user. -/
def tasksOfFirst : UserUpdateModel :=
  ⟨some 10001, none, none, none, some 5⟩

theorem truthful_iff_renameFirst : Keys testUsers.database ∧
    Truthful renameFirst .normal .normal .normal testUsers := by
  refine ⟨testUsers_keys, (truthful_iff _ _ _ _ _ testUsers_keys).mpr ⟨nofun, ?_, ?_⟩⟩
  · rintro row hfound - -
    cases hfound
    refine ⟨nofun, ?_⟩
    rintro numTasks -
    exact ⟨⟨10001, 1⟩, .head _, rfl, .inl rfl⟩
  · intro row hfound hnot
    cases hfound
    refine absurd ⟨⟨?_, ?_, .inl nofun⟩, rfl⟩ hnot
    · rintro name hname
      cases hname
      decide +kernel
    · rintro name hname
      cases hname
      decide +kernel

/-- A new task count alone is refused although it has been set, and one whose statement fails
is reported as set if it comes with a new name. -/
theorem tasks_not_truthful :
    (updateUserInfo tasksOfFirst .normal .normal .normal testUsers =
        .ok (failedMap tasksOfFirst (-1)) (changeTasks 5 10001 testUsers) ∧
      ¬ Truthful tasksOfFirst .normal .normal .normal testUsers) ∧
    updateUserInfo renameFirst .normal .normal (.thrown false) testUsers =
        .ok (success renameFirst) (changeUser renameFirst 10001 testUsers) ∧
      ¬ Truthful renameFirst .normal .normal (.thrown false) testUsers := by
  have hfailed : updateUserInfo tasksOfFirst .normal .normal .normal testUsers =
    .ok (failedMap tasksOfFirst (-1)) (changeTasks 5 10001 testUsers) := rfl
  have hreported : updateUserInfo renameFirst .normal .normal (.thrown false) testUsers =
    .ok (success renameFirst) (changeUser renameFirst 10001 testUsers) := rfl
  refine ⟨⟨hfailed, fun h => ?_⟩, hreported, fun h => ?_⟩
  · have hkept := h.failure fun ⟨response, w', heq, herr⟩ => by
      rw [hfailed] at heq
      cases heq
      cases herr
    rw [hfailed] at hkept
    exact absurd hkept (by decide)
  · have happlied := h.success_iff.mp ⟨_, _, hreported, rfl⟩
    rw [hreported] at happlied
    obtain ⟨row, hrow, hgranted⟩ := happlied
    cases hrow
    obtain ⟨authority, hmem, hid, hnum⟩ := hgranted.authority 5 rfl
    revert authority
    decide

end HakunaMatata.UserService
