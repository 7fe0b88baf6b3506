import Mathlib.Data.Finset.Basic
import Mathlib.Data.List.Nodup
import HakunaMatata.Base.Machine

/-!
# The event loop of `evloop_select.c`

The loop keeps its contexts in a list, their descriptors in `allset` and the greatest one in `nfds`.
When `select` reports something, `allset` is built again while the list is traversed: a context in
error is removed, every other one is put back. The callbacks that run meanwhile append contexts to
the list. `kept_iff_along` says when the books are right after every iteration: exactly if no
context that was added during an iteration is reached by its traversal with a descriptor that
`select` had reported in error, for the context that had this descriptor before.

The fields `nextId` and `alive` are not in the source. They give every added context a number, and
collect the contexts that no `select` has reported in error since they were added.
-/

namespace HakunaMatata.EventLoop.Select

open Base

/-- `ev_context_t`, with its number. -/
structure Context where
  fd : Nat
  id : Nat
  deriving DecidableEq, Repr

/-- `ev_loop_t`. -/
structure Loop where
  evfd : Nat
  contexts : List Context
  allset : Finset Nat
  nfds : Nat
  timeout : Int
  nextId : Nat
  alive : List Context
  deriving DecidableEq

/-- `evloop_init` and `evloop_set_timer`. -/
def evloopInit (evfd : Nat) (timeout : Int) : Loop where
  evfd := evfd
  contexts := []
  allset := {evfd}
  nfds := evfd
  timeout := timeout
  nextId := 0
  alive := []

/-- `FD_SET` for `allset`, with the update of `nfds`. -/
def mark (s : Loop) (fd : Nat) : Loop :=
  { s with allset := insert fd s.allset, nfds := if fd > s.nfds then fd else s.nfds }

/-- `evloop_add_ctx`. -/
def evloopAddCtx (s : Loop) (fd : Nat) : Loop :=
  { mark s fd with
    contexts := s.contexts ++ [⟨fd, s.nextId⟩]
    nextId := s.nextId + 1
    alive := s.alive ++ [⟨fd, s.nextId⟩] }

/-- A callback adds contexts, but none with a descriptor that a context in the list has. -/
def callback (s : Loop) (fds : List Nat) : Loop :=
  fds.foldl
    (fun s fd => if s.contexts.any (fun ctx => ctx.fd = fd) then s else evloopAddCtx s fd) s

/-- What the callbacks of an iteration add, those for a context by its number. -/
structure Callbacks where
  wake : List Nat
  read : Nat → List Nat
  error : Nat → List Nat
  timer : List Nat

/-- A place in the list. The node behind the last one is `NULL`. -/
structure Cursor where
  loop : Loop
  node : Nat

/-- `read_cb`, if the descriptor is readable. -/
def readCb (rset : Finset Nat) (cb : Callbacks) (s : Loop) (ctx : Context) : Loop :=
  if ctx.fd ∈ rset then callback s (cb.read ctx.id) else s

/-- `muggle_linked_list_remove`. -/
def remove (s : Loop) (node : Nat) : Loop :=
  { s with contexts := s.contexts.eraseIdx node }

/-- A round of the traversal. The next node is taken before the error callback is called. -/
def visit (rset eset : Finset Nat) (cb : Callbacks) (cursor : Cursor) (ctx : Context) : Cursor :=
  let s := readCb rset cb cursor.loop ctx
  if ctx.fd ∈ eset then
    let s' := callback (remove s cursor.node) (cb.error ctx.id)
    { loop := s'
      node := if cursor.node + 1 < s.contexts.length then cursor.node else s'.contexts.length }
  else { loop := mark s ctx.fd, node := cursor.node + 1 }

/-- The traversal, for a number of rounds: callbacks can add contexts without an end. -/
def traverse (rset eset : Finset Nat) (cb : Callbacks) : Nat → Cursor → Except Fault Loop
  | 0, _ => .error .diverged
  | fuel + 1, cursor =>
    if h : cursor.node < cursor.loop.contexts.length then
      traverse rset eset cb fuel
        (visit rset eset cb cursor (cursor.loop.contexts.get ⟨cursor.node, h⟩))
    else .ok cursor.loop

/-- The contexts that the traversal reaches. -/
def visits (rset eset : Finset Nat) (cb : Callbacks) : Nat → Cursor → List Context
  | 0, _ => []
  | fuel + 1, cursor =>
    if h : cursor.node < cursor.loop.contexts.length then
      cursor.loop.contexts.get ⟨cursor.node, h⟩ ::
        visits rset eset cb fuel
          (visit rset eset cb cursor (cursor.loop.contexts.get ⟨cursor.node, h⟩))
    else []

/-- `FD_ZERO`. The contexts in error are those that `select` has reported. -/
def clear (eset : Finset Nat) (s : Loop) : Loop :=
  { s with allset := ∅, alive := s.alive.filter (fun ctx => ctx.fd ∉ eset) }

/-- `wake_cb`, if the eventfd is readable. -/
def wakeCb (rset : Finset Nat) (cb : Callbacks) (s : Loop) : Loop :=
  if s.evfd ∈ rset then callback s cb.wake else s

/-- From the return of `select` to the traversal. -/
def begin (rset eset : Finset Nat) (cb : Callbacks) (s : Loop) : Loop :=
  let s := wakeCb rset cb (clear eset s)
  { s with allset := insert s.evfd s.allset, nfds := s.evfd }

/-- What `select` returns: a positive number, with what it reports, zero, or an error. -/
inductive Outcome where
  | ready (rset eset : Finset Nat)
  | timeout
  | failed

/-- Contexts are added before the loop runs, and by an iteration of `evloop_run`. What `select`
reports is within the watched set. -/
inductive Op where
  | add (fd : Nat)
  | iterate (outcome : Outcome) (cb : Callbacks) (fuel : Nat)

/-- An iteration of `evloop_run`. -/
def iterate (s : Loop) (cb : Callbacks) (fuel : Nat) : Outcome → Except Fault Loop
  | .ready rset eset => do
    let s' ← traverse (s.allset ∩ rset) (s.allset ∩ eset) cb fuel
      ⟨begin (s.allset ∩ rset) (s.allset ∩ eset) cb s, 0⟩
    pure (if 0 < s'.timeout then callback s' cb.timer else s')
  | .timeout => pure (callback s cb.timer)
  | .failed => pure s

/-- The steps. -/
def step (s : Loop) : Op → Except Fault Loop
  | .add fd => pure (callback s [fd])
  | .iterate outcome cb fuel => iterate s cb fuel outcome

/-- The books are right. -/
structure Kept (s : Loop) : Prop where
  mem_allset : ∀ fd, fd ∈ s.allset ↔ fd = s.evfd ∨ ∃ ctx ∈ s.contexts, ctx.fd = fd
  nfds_mem : s.nfds ∈ s.allset
  le_nfds : ∀ fd ∈ s.allset, fd ≤ s.nfds
  alive : ∀ ctx ∈ s.alive, ctx ∈ s.contexts

/-- No context that was added since `select` was called is reached, in an iteration that ends, with
a descriptor that this call reported in error. -/
def Fresh (s : Loop) : Op → Prop
  | .iterate (.ready rset eset) cb fuel =>
    (∃ s', iterate s cb fuel (.ready rset eset) = .ok s') →
      ∀ ctx ∈ visits (s.allset ∩ rset) (s.allset ∩ eset) cb fuel
        ⟨begin (s.allset ∩ rset) (s.allset ∩ eset) cb s, 0⟩,
        s.nextId ≤ ctx.id → ctx.fd ∉ s.allset ∩ eset
  | _ => True

/-! ## Contexts are added -/

/-- What is added to the list, and what happens to the rest of the loop. -/
structure Grows (s s' : Loop) (added : List Context) : Prop where
  evfd : s'.evfd = s.evfd
  contexts : s'.contexts = s.contexts ++ added
  alive : s'.alive = s.alive ++ added
  nextId : s.nextId ≤ s'.nextId
  new : ∀ ctx ∈ added, s.nextId ≤ ctx.id ∧ ctx.id < s'.nextId
  nodup : (added.map Context.id).Nodup
  mem_allset : ∀ fd, fd ∈ s'.allset ↔ fd ∈ s.allset ∨ ∃ ctx ∈ added, ctx.fd = fd
  le_nfds : s.nfds ≤ s'.nfds ∧ ∀ ctx ∈ added, ctx.fd ≤ s'.nfds
  nfds_eq : s'.nfds = s.nfds ∨ ∃ ctx ∈ added, ctx.fd = s'.nfds

section Grows

variable {s s' s'' : Loop} {added added' : List Context}

/-- Contexts with greater numbers are different ones. -/
theorem nodup_ids_append {old new : List Context} {n : Nat} (hold : (old.map Context.id).Nodup)
    (hnew : (new.map Context.id).Nodup) (hlt : ∀ ctx ∈ old, ctx.id < n)
    (hge : ∀ ctx ∈ new, n ≤ ctx.id) : ((old ++ new).map Context.id).Nodup := by
  rw [List.map_append]
  refine List.nodup_append.mpr ⟨hold, hnew, fun id hid id' hid' heq => ?_⟩
  obtain ⟨ctx, hctx, rfl⟩ := List.mem_map.mp hid
  obtain ⟨ctx', hctx', rfl⟩ := List.mem_map.mp hid'
  have hlt := hlt ctx hctx
  have hge := hge ctx' hctx'
  omega

theorem Grows.refl (s : Loop) : Grows s s [] := by
  constructor <;> simp

theorem Grows.trans (h : Grows s s' added) (h' : Grows s' s'' added') :
    Grows s s'' (added ++ added') := by
  constructor
  · rw [h'.evfd, h.evfd]
  · rw [h'.contexts, h.contexts, List.append_assoc]
  · rw [h'.alive, h.alive, List.append_assoc]
  · exact Nat.le_trans h.nextId h'.nextId
  · intro ctx hctx
    have hle := h.nextId
    have hle' := h'.nextId
    rcases List.mem_append.mp hctx with hold | hnew
    · have hctx := h.new ctx hold
      omega
    · have hctx := h'.new ctx hnew
      omega
  · exact nodup_ids_append h.nodup h'.nodup (fun ctx hctx => (h.new ctx hctx).2)
      fun ctx hctx => (h'.new ctx hctx).1
  · intro fd
    simp only [h'.mem_allset, h.mem_allset, List.mem_append, or_and_right, exists_or, or_assoc]
  · refine ⟨Nat.le_trans h.le_nfds.1 h'.le_nfds.1, fun ctx hctx => ?_⟩
    rcases List.mem_append.mp hctx with hold | hnew
    · exact Nat.le_trans (h.le_nfds.2 ctx hold) h'.le_nfds.1
    · exact h'.le_nfds.2 ctx hnew
  · simp only [List.mem_append, or_and_right, exists_or]
    rcases h'.nfds_eq with heq | hnew
    · rw [heq]
      exact h.nfds_eq.imp_right .inl
    · exact .inr (.inr hnew)

theorem Grows.nfds_mem (h : Grows s s' added) (hmem : s.nfds ∈ s.allset) :
    s'.nfds ∈ s'.allset := by
  rw [h.mem_allset]
  rcases h.nfds_eq with heq | hnew
  · rw [heq]
    exact .inl hmem
  · exact .inr hnew

theorem Grows.alive_mem (h : Grows s s' added) (halive : ∀ ctx ∈ s.alive, ctx ∈ s.contexts) :
    ∀ ctx ∈ s'.alive, ctx ∈ s'.contexts := by
  intro ctx hctx
  rw [h.alive, List.mem_append] at hctx
  rw [h.contexts, List.mem_append]
  exact hctx.imp_left (halive ctx)

theorem grows_evloopAddCtx (s : Loop) (fd : Nat) :
    Grows s (evloopAddCtx s fd) [⟨fd, s.nextId⟩] := by
  refine ⟨rfl, rfl, rfl, Nat.le_succ _, ?_, ?_, ?_, ?_, ?_⟩
  · simp [evloopAddCtx]
  · simp
  · intro fd'
    simp [evloopAddCtx, mark, eq_comm, or_comm]
  · simp only [evloopAddCtx, mark, List.forall_mem_singleton]
    split <;> omega
  · simp only [evloopAddCtx, mark]
    split
    · exact .inr ⟨_, List.mem_singleton_self _, rfl⟩
    · exact .inl rfl

theorem grows_callback (s : Loop) (fds : List Nat) : ∃ added, Grows s (callback s fds) added := by
  induction fds generalizing s with
  | nil => exact ⟨[], Grows.refl s⟩
  | cons fd fds ih =>
    rw [callback, List.foldl_cons]
    split
    · exact ih s
    · obtain ⟨added, hadded⟩ := ih (evloopAddCtx s fd)
      exact ⟨_, (grows_evloopAddCtx s fd).trans hadded⟩

end Grows

/-! ## Between the iterations -/

/-- The contexts in the list have different numbers. -/
structure Ids (s : Loop) : Prop where
  nodup : (s.contexts.map Context.id).Nodup
  lt : ∀ ctx ∈ s.contexts, ctx.id < s.nextId

/-- A context was lost that no `select` has reported. -/
def Lost (s : Loop) : Prop :=
  ∃ ctx ∈ s.alive, ctx ∉ s.contexts ∧ ctx.id < s.nextId

section Books

variable {s s' : Loop} {added : List Context}

theorem Ids.grows (h : Ids s) (hgrows : Grows s s' added) : Ids s' := by
  constructor
  · rw [hgrows.contexts]
    exact nodup_ids_append h.nodup hgrows.nodup h.lt fun ctx hctx => (hgrows.new ctx hctx).1
  · intro ctx hctx
    rw [hgrows.contexts, List.mem_append] at hctx
    rcases hctx with hold | hnew
    · exact Nat.lt_of_lt_of_le (h.lt ctx hold) hgrows.nextId
    · exact (hgrows.new ctx hnew).2

theorem Kept.grows (h : Kept s) (hgrows : Grows s s' added) : Kept s' := by
  constructor
  · intro fd
    rw [hgrows.mem_allset, h.mem_allset, hgrows.evfd, hgrows.contexts]
    simp only [List.mem_append, or_and_right, exists_or, or_assoc]
  · exact hgrows.nfds_mem h.nfds_mem
  · intro fd hfd
    rcases (hgrows.mem_allset fd).mp hfd with hold | ⟨ctx, hctx, rfl⟩
    · exact Nat.le_trans (h.le_nfds fd hold) hgrows.le_nfds.1
    · exact hgrows.le_nfds.2 ctx hctx
  · exact hgrows.alive_mem h.alive

theorem Lost.grows (h : Lost s) (hgrows : Grows s s' added) : Lost s' := by
  obtain ⟨ctx, halive, hlost, hlt⟩ := h
  refine ⟨ctx, ?_, ?_, Nat.lt_of_lt_of_le hlt hgrows.nextId⟩
  · rw [hgrows.alive]
    exact List.mem_append_left _ halive
  · rw [hgrows.contexts, List.mem_append]
    rintro (hold | hnew)
    · exact hlost hold
    · exact absurd (hgrows.new ctx hnew).1 (Nat.not_le_of_lt hlt)

theorem Lost.not_kept (h : Lost s) : ¬ Kept s := by
  obtain ⟨ctx, halive, hlost, _⟩ := h
  exact fun hkept => hlost (hkept.alive ctx halive)

end Books

/-! ## The traversal -/

/-- The list in a traversal, before and from the node. Since `select` was called, the contexts from
the number `base` on were added, and those from `start` on during the traversal. The watched set has
the contexts that were put back and those that were added. -/
structure Walks (base start : Nat) (eset : Finset Nat) (s : Loop) (kept todo : List Context) :
    Prop where
  contexts : s.contexts = kept ++ todo
  mem_allset : ∀ fd, fd ∈ s.allset ↔
    fd = s.evfd ∨ (∃ ctx ∈ kept, ctx.fd = fd) ∨ ∃ ctx ∈ todo, ctx.fd = fd ∧ base ≤ ctx.id
  nfds_mem : s.nfds ∈ s.allset
  evfd_le : s.evfd ≤ s.nfds
  kept_le : ∀ ctx ∈ kept, ctx.fd ≤ s.nfds
  todo_le : ∀ ctx ∈ todo, start ≤ ctx.id → ctx.fd ≤ s.nfds
  ids : Ids s
  base_le : base ≤ start
  start_le : start ≤ s.nextId
  alive : ∀ ctx ∈ s.alive, ctx ∈ s.contexts
  unreported : ∀ ctx ∈ s.alive, base ≤ ctx.id ∨ ctx.fd ∉ eset
  added : ∀ ctx ∈ s.contexts, base ≤ ctx.id → ctx ∈ s.alive

section Traversal

variable {base start : Nat} {rset eset : Finset Nat} {cb : Callbacks} {s s' : Loop}
  {kept todo added : List Context} {ctx : Context}

theorem Walks.grows (h : Walks base start eset s kept todo) (hgrows : Grows s s' added) :
    Walks base start eset s' kept (todo ++ added) := by
  have hnew : ∀ ctx ∈ added, base ≤ ctx.id := fun ctx hctx =>
    Nat.le_trans h.base_le (Nat.le_trans h.start_le (hgrows.new ctx hctx).1)
  constructor
  · rw [hgrows.contexts, h.contexts, List.append_assoc]
  · intro fd
    rw [hgrows.mem_allset, h.mem_allset, hgrows.evfd]
    have hadded : (∃ ctx ∈ added, ctx.fd = fd) ↔ ∃ ctx ∈ added, ctx.fd = fd ∧ base ≤ ctx.id :=
      exists_congr fun ctx => and_congr_right fun hctx => (and_iff_left (hnew ctx hctx)).symm
    simp only [hadded, List.mem_append, or_and_right, exists_or, or_assoc]
  · exact hgrows.nfds_mem h.nfds_mem
  · rw [hgrows.evfd]
    exact Nat.le_trans h.evfd_le hgrows.le_nfds.1
  · exact fun ctx hctx => Nat.le_trans (h.kept_le ctx hctx) hgrows.le_nfds.1
  · intro ctx hctx hstart
    rcases List.mem_append.mp hctx with hold | hnew
    · exact Nat.le_trans (h.todo_le ctx hold hstart) hgrows.le_nfds.1
    · exact hgrows.le_nfds.2 ctx hnew
  · exact h.ids.grows hgrows
  · exact h.base_le
  · exact Nat.le_trans h.start_le hgrows.nextId
  · exact hgrows.alive_mem h.alive
  · intro ctx hctx
    rw [hgrows.alive, List.mem_append] at hctx
    rcases hctx with hold | hctx
    · exact h.unreported ctx hold
    · exact .inl (hnew ctx hctx)
  · intro ctx hctx hbase
    rw [hgrows.contexts, List.mem_append] at hctx
    rw [hgrows.alive, List.mem_append]
    exact hctx.imp_left fun hold => h.added ctx hold hbase

theorem Walks.mark (h : Walks base start eset s kept (ctx :: todo)) :
    Walks base start eset (mark s ctx.fd) (kept ++ [ctx]) todo := by
  have hcontexts : s.contexts = kept ++ [ctx] ++ todo := by
    rw [h.contexts, List.append_assoc]
    rfl
  have hle : s.nfds ≤ (Select.mark s ctx.fd).nfds ∧ ctx.fd ≤ (Select.mark s ctx.fd).nfds := by
    simp only [Select.mark]
    split <;> omega
  refine ⟨hcontexts, fun fd => ?_, ?_, Nat.le_trans h.evfd_le hle.1, fun other hother => ?_,
    fun other hother hstart => ?_, ⟨h.ids.nodup, h.ids.lt⟩, h.base_le, h.start_le, h.alive,
    h.unreported, h.added⟩
  · show fd ∈ insert ctx.fd s.allset ↔ fd = s.evfd ∨ _
    simp only [Finset.mem_insert, h.mem_allset, List.mem_append, List.mem_cons, or_and_right,
      exists_or, exists_eq_left, List.not_mem_nil, false_and, exists_false]
    grind
  · simp only [Select.mark, Finset.mem_insert]
    split
    · exact .inl rfl
    · exact .inr h.nfds_mem
  · rcases List.mem_append.mp hother with hold | hself
    · exact Nat.le_trans (h.kept_le other hold) hle.1
    · rw [List.mem_singleton.mp hself]
      exact hle.2
  · exact Nat.le_trans (h.todo_le other (List.mem_cons_of_mem ctx hother) hstart) hle.1

theorem contexts_remove (h : s.contexts = kept ++ ctx :: todo) :
    (remove s kept.length).contexts = kept ++ todo := by
  rw [remove, h, List.eraseIdx_append_of_length_le (Nat.le_refl _), Nat.sub_self]
  rfl

theorem Walks.remove (h : Walks base start eset s kept (ctx :: todo)) (hold : ctx.id < base)
    (heset : ctx.fd ∈ eset) : Walks base start eset (remove s kept.length) kept todo := by
  have hcontexts := contexts_remove h.contexts
  have hsub : (Select.remove s kept.length).contexts.Sublist s.contexts := List.eraseIdx_sublist _ _
  refine ⟨hcontexts, fun fd => ?_, h.nfds_mem, h.evfd_le, h.kept_le,
    fun other hother => h.todo_le other (List.mem_cons_of_mem ctx hother),
    ⟨(hsub.map Context.id).nodup h.ids.nodup, fun other hother => h.ids.lt other (hsub.mem hother)⟩,
    h.base_le, h.start_le, fun other hother => ?_, h.unreported,
    fun other hother => h.added other (hsub.mem hother)⟩
  · have hnot : ¬ base ≤ ctx.id := Nat.not_le_of_lt hold
    show fd ∈ s.allset ↔ _
    simp only [h.mem_allset, List.mem_cons, or_and_right, exists_or, exists_eq_left, hnot,
      and_false, false_or]
    rfl
  · have hmem := h.alive other hother
    rw [h.contexts, List.mem_append, List.mem_cons] at hmem
    rw [hcontexts, List.mem_append]
    rcases hmem with hkept | rfl | htodo
    · exact .inl hkept
    · rcases h.unreported other hother with hbase | hfd
      · exact absurd hbase (Nat.not_le_of_lt hold)
      · exact absurd heset hfd
    · exact .inr htodo

theorem Walks.lost (h : Walks base start eset s kept (ctx :: todo)) (hnew : base ≤ ctx.id) :
    Lost (Select.remove s kept.length) := by
  have hmem : ctx ∈ s.contexts := by
    rw [h.contexts]
    exact List.mem_append_right _ List.mem_cons_self
  refine ⟨ctx, h.added ctx hmem hnew, ?_, h.ids.lt ctx hmem⟩
  have hnodup := h.ids.nodup.of_map
  rw [h.contexts, List.nodup_middle] at hnodup
  rw [contexts_remove h.contexts]
  exact (List.nodup_cons.mp hnodup).1

/-- Contexts that were added after the last node was removed are not visited. -/
theorem Walks.skip (h : Walks base start eset s kept todo) (hnew : ∀ ctx ∈ todo, start ≤ ctx.id) :
    Walks base start eset s (kept ++ todo) [] := by
  refine ⟨?_, fun fd => ?_, h.nfds_mem, h.evfd_le, fun ctx hctx => ?_, nofun, h.ids, h.base_le,
    h.start_le, h.alive, h.unreported, h.added⟩
  · rw [List.append_nil]
    exact h.contexts
  · have htodo : (∃ ctx ∈ todo, ctx.fd = fd ∧ base ≤ ctx.id) ↔ ∃ ctx ∈ todo, ctx.fd = fd :=
      exists_congr fun ctx => and_congr_right fun hctx =>
        and_iff_left (Nat.le_trans h.base_le (hnew ctx hctx))
    simp only [h.mem_allset, htodo, List.mem_append, or_and_right, exists_or, List.not_mem_nil,
      false_and, exists_false, or_false]
  · rcases List.mem_append.mp hctx with hkept | htodo
    · exact h.kept_le ctx hkept
    · exact h.todo_le ctx htodo (hnew ctx htodo)

theorem grows_readCb (rset : Finset Nat) (cb : Callbacks) (s : Loop) (ctx : Context) :
    ∃ added, Grows s (readCb rset cb s ctx) added := by
  unfold readCb
  split
  · exact grows_callback s _
  · exact ⟨[], Grows.refl s⟩

/-- A round of the traversal, at a context that was in the list when `select` was called or that is
not in error. -/
theorem Walks.visit (h : Walks base start eset s kept (ctx :: todo))
    (hfresh : base ≤ ctx.id → ctx.fd ∉ eset) (rset : Finset Nat) (cb : Callbacks) :
    ∃ kept' todo', (visit rset eset cb ⟨s, kept.length⟩ ctx).node = kept'.length ∧
      Walks base start eset (visit rset eset cb ⟨s, kept.length⟩ ctx).loop kept' todo' := by
  obtain ⟨added, hread⟩ := grows_readCb rset cb s ctx
  have hwalks : Walks base start eset (readCb rset cb s ctx) kept (ctx :: (todo ++ added)) :=
    h.grows hread
  unfold Select.visit
  dsimp only
  split
  · rename_i heset
    have hold : ctx.id < base := Nat.lt_of_not_le fun hnew => hfresh hnew heset
    have hremoved := hwalks.remove hold heset
    obtain ⟨more, herror⟩ :=
      grows_callback (Select.remove (readCb rset cb s ctx) kept.length) (cb.error ctx.id)
    have hall := hremoved.grows herror
    dsimp only
    split
    · exact ⟨kept, _, rfl, hall⟩
    · rename_i hlast
      -- the removed node was the last one
      have hnil : todo ++ added = [] := by
        rw [hwalks.contexts, List.length_append, List.length_cons] at hlast
        exact List.eq_nil_of_length_eq_zero (by omega)
      rw [hnil, List.nil_append] at hall
      have hskip := hall.skip fun other hother =>
        Nat.le_trans hremoved.start_le (herror.new other hother).1
      exact ⟨_, [], by rw [hall.contexts], hskip⟩
  · exact ⟨kept ++ [ctx], todo ++ added, by simp, hwalks.mark⟩

theorem Lost.remove (h : Lost s) (node : Nat) : Lost (Select.remove s node) := by
  obtain ⟨ctx, halive, hlost, hlt⟩ := h
  exact ⟨ctx, halive, fun hmem => hlost (List.mem_of_mem_eraseIdx hmem), hlt⟩

theorem Lost.visit {cursor : Cursor} (h : Lost cursor.loop) (ctx : Context) :
    Lost (visit rset eset cb cursor ctx).loop := by
  obtain ⟨added, hread⟩ := grows_readCb rset cb cursor.loop ctx
  have hlost := h.grows hread
  unfold Select.visit
  dsimp only
  split
  · obtain ⟨more, herror⟩ :=
      grows_callback (Select.remove (readCb rset cb cursor.loop ctx) cursor.node) (cb.error ctx.id)
    exact (hlost.remove cursor.node).grows herror
  · exact hlost

theorem Walks.visit_lost (h : Walks base start eset s kept (ctx :: todo)) (hnew : base ≤ ctx.id)
    (heset : ctx.fd ∈ eset) : Lost (Select.visit rset eset cb ⟨s, kept.length⟩ ctx).loop := by
  obtain ⟨added, hread⟩ := grows_readCb rset cb s ctx
  have hwalks : Walks base start eset (readCb rset cb s ctx) kept (ctx :: (todo ++ added)) :=
    h.grows hread
  unfold Select.visit
  dsimp only
  rw [if_pos heset]
  obtain ⟨more, herror⟩ :=
    grows_callback (Select.remove (readCb rset cb s ctx) kept.length) (cb.error ctx.id)
  exact (hwalks.lost hnew).grows herror

theorem Walks.kept_of_end (h : Walks base start eset s kept []) : Kept s := by
  have hcontexts := h.contexts
  rw [List.append_nil] at hcontexts
  have hmem : ∀ fd, fd ∈ s.allset ↔ fd = s.evfd ∨ ∃ ctx ∈ s.contexts, ctx.fd = fd := by
    intro fd
    rw [h.mem_allset, hcontexts]
    simp
  refine ⟨hmem, h.nfds_mem, fun fd hfd => ?_, h.alive⟩
  rcases (hmem fd).mp hfd with rfl | ⟨ctx, hctx, rfl⟩
  · exact h.evfd_le
  · exact h.kept_le ctx (hcontexts ▸ hctx)

theorem Walks.get_node (h : Walks base start eset s kept todo)
    (hlt : kept.length < s.contexts.length) :
    ∃ rest, todo = s.contexts.get ⟨kept.length, hlt⟩ :: rest := by
  cases todo with
  | nil =>
    rw [h.contexts, List.append_nil] at hlt
    exact absurd hlt (Nat.lt_irrefl _)
  | cons ctx rest =>
    have hnode : s.contexts[kept.length]? = some ctx := by
      rw [h.contexts]
      simp
    obtain ⟨_, hget⟩ := List.getElem?_eq_some_iff.mp hnode
    exact ⟨rest, congrArg (· :: rest) hget.symm⟩

theorem Lost.traverse {fuel : Nat} {cursor : Cursor} (h : Lost cursor.loop)
    (hs' : traverse rset eset cb fuel cursor = .ok s') : Lost s' := by
  induction fuel generalizing cursor with
  | zero => cases hs'
  | succ fuel ih =>
    unfold Select.traverse at hs'
    split at hs'
    · exact ih (h.visit _) hs'
    · cases hs'
      exact h

/-- The traversal loses nothing exactly if no context that was added since is reached in error. -/
theorem Walks.traverse {fuel : Nat} (h : Walks base start eset s kept todo)
    (hs' : traverse rset eset cb fuel ⟨s, kept.length⟩ = .ok s') :
    ((∀ ctx ∈ visits rset eset cb fuel ⟨s, kept.length⟩, base ≤ ctx.id → ctx.fd ∉ eset) →
      Kept s' ∧ Ids s') ∧
    (¬ (∀ ctx ∈ visits rset eset cb fuel ⟨s, kept.length⟩, base ≤ ctx.id → ctx.fd ∉ eset) →
      Lost s') := by
  induction fuel generalizing s kept todo with
  | zero => cases hs'
  | succ fuel ih =>
    unfold Select.traverse at hs'
    unfold visits
    by_cases hlt : kept.length < s.contexts.length
    · rw [dif_pos hlt] at hs' ⊢
      obtain ⟨rest, hrest⟩ := h.get_node hlt
      rw [hrest] at h
      rw [List.forall_mem_cons]
      by_cases hfresh : base ≤ (s.contexts.get ⟨kept.length, hlt⟩).id →
          (s.contexts.get ⟨kept.length, hlt⟩).fd ∉ eset
      · obtain ⟨kept', todo', hnode, hwalks⟩ := h.visit hfresh rset cb
        have hcursor : Select.visit rset eset cb ⟨s, kept.length⟩
            (s.contexts.get ⟨kept.length, hlt⟩) =
            ⟨(Select.visit rset eset cb ⟨s, kept.length⟩
              (s.contexts.get ⟨kept.length, hlt⟩)).loop, kept'.length⟩ := by
          rw [← hnode]
        rw [hcursor] at hs' ⊢
        rw [and_iff_right hfresh]
        exact ih hwalks hs'
      · rw [Classical.not_imp, not_not] at hfresh
        have hlost := (h.visit_lost hfresh.1 hfresh.2).traverse hs'
        exact ⟨fun hall => absurd hfresh.2 (hall.1 hfresh.1), fun _ => hlost⟩
    · rw [dif_neg hlt] at hs' ⊢
      cases hs'
      have hnil : todo = [] := by
        rw [h.contexts, List.length_append] at hlt
        exact List.eq_nil_of_length_eq_zero (by omega)
      rw [hnil] at h
      exact ⟨fun _ => ⟨h.kept_of_end, h.ids⟩, fun hnot => absurd nofun hnot⟩

end Traversal

/-! ## Iterations -/

section Iterations

variable {s s' : Loop} {rset eset : Finset Nat} {cb : Callbacks}

theorem grows_wakeCb (rset : Finset Nat) (cb : Callbacks) (s : Loop) :
    ∃ added, Grows s (wakeCb rset cb s) added := by
  unfold wakeCb
  split
  · exact grows_callback s _
  · exact ⟨[], Grows.refl s⟩

theorem walks_begin (hkept : Kept s) (hids : Ids s) (rset eset : Finset Nat) (cb : Callbacks) :
    Walks s.nextId (begin rset eset cb s).nextId eset (begin rset eset cb s) []
      (begin rset eset cb s).contexts := by
  obtain ⟨added, hgrows⟩ := grows_wakeCb rset cb (clear eset s)
  have hcontexts : (begin rset eset cb s).contexts = s.contexts ++ added := hgrows.contexts
  have halive : (begin rset eset cb s).alive =
      s.alive.filter (fun ctx => ctx.fd ∉ eset) ++ added := hgrows.alive
  have hclear : Ids (clear eset s) := ⟨hids.nodup, hids.lt⟩
  have hids' := hclear.grows hgrows
  -- the contexts that the wakeup callback added are the new ones
  have hnew : ∀ ctx ∈ (begin rset eset cb s).contexts, s.nextId ≤ ctx.id → ctx ∈ added := by
    intro ctx hctx hle
    rw [hcontexts, List.mem_append] at hctx
    exact hctx.resolve_left fun hold => Nat.not_lt_of_le hle (hids.lt ctx hold)
  constructor
  · rfl
  · intro fd
    show fd ∈ insert (wakeCb rset cb (clear eset s)).evfd (wakeCb rset cb (clear eset s)).allset ↔
      fd = (wakeCb rset cb (clear eset s)).evfd ∨ _
    rw [Finset.mem_insert, hgrows.mem_allset]
    refine or_congr_right ⟨?_, ?_⟩
    · rintro (hempty | ⟨ctx, hctx, hfd⟩)
      · exact absurd hempty (Finset.notMem_empty fd)
      · refine .inr ⟨ctx, ?_, hfd, (hgrows.new ctx hctx).1⟩
        rw [hcontexts]
        exact List.mem_append_right _ hctx
    · rintro (⟨ctx, hctx, _⟩ | ⟨ctx, hctx, hfd, hle⟩)
      · exact absurd hctx List.not_mem_nil
      · exact .inr ⟨ctx, hnew ctx hctx hle, hfd⟩
  · exact Finset.mem_insert_self _ _
  · exact Nat.le_refl _
  · exact fun ctx hctx => absurd hctx List.not_mem_nil
  · exact fun ctx hctx hle => absurd (hids'.lt ctx hctx) (Nat.not_lt_of_le hle)
  · exact ⟨hids'.nodup, hids'.lt⟩
  · exact hgrows.nextId
  · exact Nat.le_refl _
  · intro ctx hctx
    rw [halive, List.mem_append] at hctx
    rw [hcontexts, List.mem_append]
    exact hctx.imp_left fun hold => hkept.alive ctx (List.mem_of_mem_filter hold)
  · intro ctx hctx
    rw [halive, List.mem_append] at hctx
    rcases hctx with hold | hctx
    · exact .inr (of_decide_eq_true (List.mem_filter.mp hold).2)
    · exact .inl (hgrows.new ctx hctx).1
  · intro ctx hctx hle
    rw [halive]
    exact List.mem_append_right _ (hnew ctx hctx hle)

theorem grows_timer (s : Loop) (cb : Callbacks) :
    ∃ added, Grows s (if 0 < s.timeout then callback s cb.timer else s) added := by
  split
  · exact grows_callback s _
  · exact ⟨[], Grows.refl s⟩

theorem iterate_ready {fuel : Nat} (hkept : Kept s) (hids : Ids s)
    (hs' : iterate s cb fuel (.ready rset eset) = .ok s') :
    (Kept s' ↔ Fresh s (.iterate (.ready rset eset) cb fuel)) ∧
      (Fresh s (.iterate (.ready rset eset) cb fuel) → Ids s') := by
  have hends : ∃ s', iterate s cb fuel (.ready rset eset) = .ok s' := ⟨s', hs'⟩
  obtain ⟨last, hlast, heq⟩ := bind_eq_ok.mp hs'
  cases heq
  obtain ⟨hfresh, hstale⟩ :=
    (walks_begin hkept hids (s.allset ∩ rset) (s.allset ∩ eset) cb).traverse hlast
  obtain ⟨added, hgrows⟩ := grows_timer last cb
  refine ⟨⟨fun hkept' _ => ?_, fun h => ?_⟩, fun h => ?_⟩
  · by_contra hnot
    exact ((hstale hnot).grows hgrows).not_kept hkept'
  · exact (hfresh (h hends)).1.grows hgrows
  · exact (hfresh (h hends)).2.grows hgrows

theorem step_kept {op : Op} (hkept : Kept s) (hids : Ids s) (hs' : step s op = .ok s') :
    (Kept s' ↔ Fresh s op) ∧ (Fresh s op → Ids s') := by
  have hquiet : ∀ fds, (Kept (callback s fds) ↔ True) ∧ (True → Ids (callback s fds)) := by
    intro fds
    obtain ⟨added, hgrows⟩ := grows_callback s fds
    exact ⟨iff_true_intro (hkept.grows hgrows), fun _ => hids.grows hgrows⟩
  cases op with
  | add fd =>
    cases hs'
    exact hquiet [fd]
  | iterate outcome cb fuel =>
    cases outcome with
    | ready rset eset => exact iterate_ready hkept hids hs'
    | timeout =>
      cases hs'
      exact hquiet cb.timer
    | failed =>
      cases hs'
      exact ⟨iff_true_intro hkept, fun _ => hids⟩

theorem fresh_of_error {op : Op} {fault : Fault} (h : step s op = .error fault) : Fresh s op := by
  cases op with
  | add fd => trivial
  | iterate outcome cb fuel =>
    cases outcome with
    | ready rset eset =>
      rintro ⟨s', hs'⟩
      cases h.symm.trans hs'
    | timeout => trivial
    | failed => trivial

theorem kept_evloopInit (evfd : Nat) (timeout : Int) : Kept (evloopInit evfd timeout) := by
  constructor <;> simp [evloopInit]

theorem ids_evloopInit (evfd : Nat) (timeout : Int) : Ids (evloopInit evfd timeout) := by
  constructor <;> simp [evloopInit]

end Iterations

/-- The books are right after every iteration of a run exactly if in none of them a context that was
added meanwhile is reached with a descriptor that was reported in error. -/
theorem kept_iff_along (evfd : Nat) (timeout : Int) (ops : List Op) :
    Throughout step Kept (evloopInit evfd timeout) ops ↔
      Along step Fresh (evloopInit evfd timeout) ops := by
  refine throughout_iff_along_of_inv
    (fun s op s' (h : Kept s ∧ Ids s) hs' => (step_kept h.1 h.2 hs').1)
    (fun s op s' h hs' hfresh => ?_) (fun s op fault _ hfault => fresh_of_error hfault)
    (fun s h => h.1) ⟨kept_evloopInit evfd timeout, ids_evloopInit evfd timeout⟩
  obtain ⟨hiff, hids⟩ := step_kept h.1 h.2 hs'
  exact ⟨hiff.mpr hfresh, hids hfresh⟩

/-- Two contexts with the descriptors 5 and 6. The first one is in error: its error callback closes
5 and adds a context that gets 5 again. -/
def reusedFd : List Op :=
  [.add 5, .add 6,
    .iterate (.ready ∅ {5}) ⟨[], fun _ => [], fun id => if id = 0 then [5] else [], []⟩ 4]

/-- The new context is removed in the same iteration, and 5 stays in the watched set. -/
theorem reusedFd_not_kept : ¬ Throughout step Kept (evloopInit 3 (-1)) reusedFd := by
  have hrun : ∃ s, reusedFd.foldlM step (evloopInit 3 (-1)) = .ok s ∧
      s.contexts = [⟨6, 1⟩] ∧ s.alive = [⟨6, 1⟩, ⟨5, 2⟩] ∧ 5 ∈ s.allset :=
    ⟨_, rfl, rfl, rfl, by decide⟩
  obtain ⟨s, hs, hcontexts, halive, _⟩ := hrun
  intro h
  have hmem := (h.last hs).alive ⟨5, 2⟩ (by rw [halive]; decide)
  rw [hcontexts] at hmem
  exact absurd hmem (by decide)

end HakunaMatata.EventLoop.Select
