import HakunaMatata.CodecChain.Order

/-!
# The callbacks of a dispatcher, `dispatcher.cpp`

`setTotalMessage` allocates the array of callbacks once, and `registerCallback` enters a function
for a message id. Both can be called at any time and in any order, and they tell by their result
whether they did anything. `registered_callbacks` says what a dispatcher finds for a message after
any sequence of these calls: the first function that was registered for its id once the array was
there.
-/

namespace HakunaMatata.CodecChain

open Base

/-- A call of a method that changes the callbacks. `allocated` is whether `malloc` succeeds. A
function that is registered may be a null pointer. -/
inductive Call (κ : Type) where
  | setTotalMessage (totalMsg : UInt32) (allocated : Bool)
  | registerCallback (msgId : UInt32) (cb : Option κ)

section Registry

variable {κ : Type}

/-- `Dispatcher::Dispatcher`. -/
def Registry.new : Registry κ :=
  ⟨0, []⟩

/-- `Dispatcher::setTotalMessage`. -/
def setTotalMessage (r : Registry κ) (totalMsg : UInt32) (allocated : Bool) : Bool × Registry κ :=
  if r.totalMsg ≠ 0 then (false, r)
  else if allocated = false then (false, { r with callbacks := [] })
  else (true, ⟨totalMsg.toNat, List.replicate totalMsg.toNat none⟩)

/-- `Dispatcher::registerCallback`. -/
def registerCallback (r : Registry κ) (msgId : UInt32) (cb : Option κ) :
    Except Fault (Bool × Registry κ) :=
  if r.totalMsg ≤ msgId.toNat then .ok (false, r)
  else do
    let callback ← load r.callbacks msgId.toNat
    if callback.isSome then pure (false, r)
    else do
      let callbacks ← store r.callbacks msgId.toNat cb
      pure (true, { r with callbacks := callbacks })

/-- Make a call. -/
def Registry.call (r : Registry κ) : Call κ → Except Fault (Bool × Registry κ)
  | .setTotalMessage totalMsg allocated => .ok (setTotalMessage r totalMsg allocated)
  | .registerCallback msgId cb => registerCallback r msgId cb

/-- Make calls one after the other, and note their results. -/
def Registry.calls (r : Registry κ) : List (Call κ) → Except Fault (List Bool × Registry κ)
  | [] => .ok ([], r)
  | call :: calls => do
    let (ret, r) ← r.call call
    let (rets, r) ← r.calls calls
    pure (ret :: rets, r)

end Registry

/-! ## What a history of calls has registered -/

section History

variable {κ : Type}

/-- The size of the array after these calls: that of the first allocation that takes effect. -/
def capacity : List (Call κ) → Nat
  | [] => 0
  | .setTotalMessage totalMsg allocated :: calls =>
    if allocated = true ∧ totalMsg ≠ 0 then totalMsg.toNat else capacity calls
  | .registerCallback _ _ :: calls => capacity calls

/-- The functions that these calls name for a message id, in order. -/
def named (msgId : Nat) (calls : List (Call κ)) : List κ :=
  calls.filterMap fun
    | .setTotalMessage _ _ => none
    | .registerCallback id cb => if id.toNat = msgId then cb else none

/-- The functions named for a message id from the allocation on. -/
def offered (msgId : Nat) : List (Call κ) → List κ
  | [] => []
  | .setTotalMessage totalMsg allocated :: calls =>
    if allocated = true ∧ totalMsg ≠ 0 then named msgId calls else offered msgId calls
  | .registerCallback _ _ :: calls => offered msgId calls

/-- The function that is found for a message id after these calls. -/
def registered (calls : List (Call κ)) (msgId : Nat) : Option κ :=
  if msgId < capacity calls then (offered msgId calls).head? else none

end History

section Calls

variable {κ : Type} {r r' : Registry κ} {msgId : UInt32} {cb : Option κ} {ret : Bool}

/-- The array has as many entries as `total_msg_` says. -/
def Registry.Sized (r : Registry κ) : Prop :=
  r.callbacks.length = r.totalMsg

/-- `callbacks_[msg_id]` of an id below `total_msg_`. -/
def Registry.find (r : Registry κ) (msgId : Nat) : Option κ :=
  r.callbacks[msgId]?.join

theorem Registry.load_eq (h : r.Sized) {id : Nat} (hid : id < r.totalMsg) :
    load r.callbacks id = .ok (r.find id) := by
  have hin : id < r.callbacks.length := hid.trans_eq h.symm
  rw [load_of_lt hin, Registry.find, List.getElem?_eq_getElem hin]
  rfl

theorem registerCallback_of_free (h : r.Sized) (hlt : msgId.toNat < r.totalMsg)
    (hfree : r.find msgId.toNat = none) :
    registerCallback r msgId cb =
      .ok (true, { r with callbacks := r.callbacks.set msgId.toNat cb }) := by
  have hin : msgId.toNat < r.callbacks.length := hlt.trans_eq h.symm
  rw [registerCallback, if_neg (Nat.not_le.mpr hlt), Registry.load_eq h hlt, hfree, ok_bind,
    store_of_lt hin]
  rfl

/-- A registration outside the array is refused, and so is a second one. -/
theorem registerCallback_of_not (h : r.Sized)
    (hnot : ¬ (msgId.toNat < r.totalMsg ∧ r.find msgId.toNat = none)) :
    registerCallback r msgId cb = .ok (false, r) := by
  by_cases hlt : msgId.toNat < r.totalMsg
  · rw [registerCallback, if_neg (Nat.not_le.mpr hlt), Registry.load_eq h hlt, ok_bind]
    cases hentry : r.find msgId.toNat with
    | none => exact absurd ⟨hlt, hentry⟩ hnot
    | some func => rfl
  · rw [registerCallback, if_pos (Nat.le_of_not_lt hlt)]

theorem Registry.find_set (h : r.Sized) {id : Nat} (hid : id < r.totalMsg) (index : Nat) :
    Registry.find { r with callbacks := r.callbacks.set index cb } id =
      if index = id then cb else r.find id := by
  have hin : id < r.callbacks.length := hid.trans_eq h.symm
  rw [Registry.find, Registry.find, List.getElem?_set]
  split
  · subst id
    rw [if_pos hin]
    rfl
  · rfl

/-- A call on an allocated array keeps its size and every function in it. An entry that is free
takes the function that the call names for it. -/
theorem call_of_sized (h : r.Sized) (hpos : r.totalMsg ≠ 0) (call : Call κ) :
    ∃ ret r', r.call call = .ok (ret, r') ∧ r'.Sized ∧ r'.totalMsg = r.totalMsg ∧
      ∀ id < r.totalMsg, r'.find id = (r.find id).or (named id [call]).head? := by
  cases call with
  | setTotalMessage totalMsg allocated =>
    have hcall : r.call (.setTotalMessage totalMsg allocated) = .ok (false, r) := by
      rw [Registry.call, setTotalMessage, if_pos hpos]
    exact ⟨false, r, hcall, h, rfl, fun id _ => Option.or_none.symm⟩
  | registerCallback msgId cb =>
    have hnamed : ∀ id, (named id [.registerCallback msgId cb]).head? =
        if msgId.toNat = id then cb else none := by
      intro id
      by_cases hsame : msgId.toNat = id
      · cases cb with
        | none => simp [named]
        | some func => simp [named, hsame]
      · simp [named, hsame]
    by_cases hfree : msgId.toNat < r.totalMsg ∧ r.find msgId.toNat = none
    · refine ⟨true, _, registerCallback_of_free h hfree.1 hfree.2, ?_, rfl, fun id hid => ?_⟩
      · exact List.length_set.trans h
      · rw [Registry.find_set h hid, hnamed]
        split
        · subst id
          rw [hfree.2]
          rfl
        · exact Option.or_none.symm
    · refine ⟨false, r, registerCallback_of_not h hfree, h, rfl, fun id hid => ?_⟩
      rw [hnamed]
      split
      · subst id
        cases hentry : r.find msgId.toNat with
        | none => exact absurd ⟨hid, hentry⟩ hfree
        | some func => rfl
      · exact Option.or_none.symm

theorem Registry.calls_cons {call : Call κ} {calls : List (Call κ)} {next : Registry κ}
    {rets : List Bool} (hcall : r.call call = .ok (ret, next))
    (hcalls : next.calls calls = .ok (rets, r')) :
    r.calls (call :: calls) = .ok (ret :: rets, r') := by
  rw [Registry.calls, hcall, ok_bind]
  simp only [hcalls, bind, Except.bind, pure, Except.pure]

theorem head?_named_cons (id : Nat) (call : Call κ) (calls : List (Call κ)) :
    (named id (call :: calls)).head? =
      (named id [call]).head?.or (named id calls).head? := by
  have happend : named id (call :: calls) = named id [call] ++ named id calls :=
    List.filterMap_append (l := [call])
  rw [happend, List.head?_append]

/-- What calls on an allocated array leave: the entry of an id is the function that it had before,
or the first one that is named for it. -/
theorem calls_of_sized (h : r.Sized) (hpos : r.totalMsg ≠ 0) (calls : List (Call κ)) :
    ∃ rets r', r.calls calls = .ok (rets, r') ∧ r'.Sized ∧ r'.totalMsg = r.totalMsg ∧
      ∀ id < r.totalMsg, r'.find id = (r.find id).or (named id calls).head? := by
  induction calls generalizing r with
  | nil => exact ⟨[], r, rfl, h, rfl, fun id _ => Option.or_none.symm⟩
  | cons call calls ih =>
    obtain ⟨ret, next, hcall, hsized, htotal, hfind⟩ := call_of_sized h hpos call
    obtain ⟨rets, r', hcalls, hsized', htotal', hfind'⟩ := ih hsized (htotal ▸ hpos)
    refine ⟨_, r', Registry.calls_cons hcall hcalls, hsized', htotal'.trans htotal,
      fun id hid => ?_⟩
    rw [hfind' id (htotal ▸ hid), hfind id hid, head?_named_cons id call calls, Option.or_assoc]

/-- Before the array is allocated every registration is refused. -/
theorem calls_of_empty (h : r.totalMsg = 0) (hnone : r.callbacks = []) (calls : List (Call κ)) :
    ∃ rets r', r.calls calls = .ok (rets, r') ∧ r'.Sized ∧ r'.totalMsg = capacity calls ∧
      ∀ id < capacity calls, r'.find id = (offered id calls).head? := by
  have hsized : r.Sized := by
    rw [Registry.Sized, hnone, h]
    rfl
  induction calls generalizing r with
  | nil => exact ⟨[], r, rfl, hsized, h, fun id hid => absurd hid (Nat.not_lt_zero id)⟩
  | cons call calls ih =>
    cases call with
    | setTotalMessage totalMsg allocated =>
      by_cases heffect : allocated = true ∧ totalMsg ≠ 0
      · have hpos : totalMsg.toNat ≠ 0 := by
          intro hzero
          exact heffect.2 (UInt32.toNat_inj.mp hzero)
        have hcall : r.call (.setTotalMessage totalMsg allocated) =
            .ok (true, ⟨totalMsg.toNat, List.replicate totalMsg.toNat none⟩) := by
          simp [Registry.call, setTotalMessage, h, heffect.1]
        obtain ⟨rets, r', hcalls, hsized', htotal, hfind⟩ :=
          calls_of_sized (r := ⟨totalMsg.toNat, List.replicate totalMsg.toNat none⟩)
            List.length_replicate hpos calls
        refine ⟨_, r', Registry.calls_cons hcall hcalls, hsized', ?_, fun id hid => ?_⟩
        · rw [htotal, capacity, if_pos heffect]
        · rw [capacity, if_pos heffect] at hid
          rw [hfind id hid, offered, if_pos heffect]
          simp [Registry.find, hid]
      · -- nothing is allocated, or an array without entries
        obtain ⟨ret, hcall⟩ : ∃ ret,
            r.call (.setTotalMessage totalMsg allocated) = .ok (ret, ⟨0, []⟩) := by
          cases allocated with
          | false => exact ⟨false, by simp [Registry.call, setTotalMessage, h]⟩
          | true =>
            obtain rfl : totalMsg = 0 := by simpa using heffect
            exact ⟨true, by simp [Registry.call, setTotalMessage, h]⟩
        obtain ⟨rets, r', hcalls, hrest⟩ := ih (r := ⟨0, []⟩) rfl rfl rfl
        refine ⟨_, r', Registry.calls_cons hcall hcalls, ?_⟩
        simpa only [capacity, offered, if_neg heffect] using hrest
    | registerCallback msgId cb =>
      have hcall : r.call (.registerCallback msgId cb) = .ok (false, r) := by
        refine registerCallback_of_not hsized fun hfree => ?_
        rw [h] at hfree
        exact Nat.not_lt_zero _ hfree.1
      obtain ⟨rets, r', hcalls, hrest⟩ := ih h hnone hsized
      exact ⟨_, r', Registry.calls_cons hcall hcalls, hrest⟩

end Calls

/-- For every sequence of calls on a new dispatcher, in any order and with any failures of `malloc`:
no call reads or writes outside the array, and for every message that is received afterwards the
dispatcher finds the first function that was registered for its id from the allocation on, if the
id is below the number of messages that was set first, and otherwise none. A function that is
registered is never replaced. -/
theorem registered_callbacks {κ : Type} (calls : List (Call κ)) (endian : Endian) :
    ∃ rets r, Registry.new.calls calls = .ok (rets, r) ∧ ∀ data : List UInt8, 12 ≤ data.length →
      callbackOf endian r data =
        .ok (registered calls (loadWord endian ((data.drop 8).take 4))) := by
  obtain ⟨rets, r, hcalls, hsized, htotal, hfind⟩ :=
    calls_of_empty (r := Registry.new) rfl rfl calls
  refine ⟨rets, r, hcalls, fun data hlen => ?_⟩
  rw [callbackOf, bytesAt_of_le hlen, ok_bind]
  generalize loadWord endian ((data.drop 8).take 4) = id
  unfold registered
  rw [htotal]
  by_cases hid : id < capacity calls
  · rw [if_pos hid, if_pos hid, Registry.load_eq hsized (htotal ▸ hid), hfind id hid]
  · rw [if_neg hid, if_neg hid]
    rfl

end HakunaMatata.CodecChain
