import Mathlib.Data.List.Chain
import Mathlib.Data.List.Nodup
import Mathlib.Logic.Function.Basic

/-!
# Doubly linked lists between two sentinels

The links are two functions on nodes, `next` and `prev`, and writing a link is
`Function.update`. `IsList next prev head tail xs` says that the nodes `xs` stand between
the sentinels in this order, linked in both directions. `IsList.insert_last` and
`IsList.remove` are the two list operations, `IsList.walk_next` and `IsList.walk_prev` read the
list back, and `IsList.relocate` moves every node of the list to another address by the two
loops that patch the links in place. `Leads` is about links that end with a null pointer instead,
followed in one direction.
-/

namespace HakunaMatata.Base

variable {ν : Type*}

/-- Consecutive nodes point to each other. -/
def Linked (next prev : ν → ν) (nodes : List ν) : Prop :=
  nodes.IsChain fun a b => next a = b ∧ prev b = a

/-- The nodes `xs` are linked between the sentinels `head` and `tail`, and no node occurs twice. -/
structure IsList (next prev : ν → ν) (head tail : ν) (xs : List ν) : Prop where
  linked : Linked next prev (head :: (xs ++ [tail]))
  nodup : (head :: (xs ++ [tail])).Nodup

variable {next prev : ν → ν} {head tail : ν} {xs : List ν}

theorem IsList.reverse (h : IsList next prev head tail xs) :
    IsList prev next tail head xs.reverse := by
  have hlist : tail :: (xs.reverse ++ [head]) = (head :: (xs ++ [tail])).reverse := by simp
  refine ⟨?_, ?_⟩
  · rw [hlist, Linked, List.isChain_reverse]
    exact h.linked.imp fun _ _ hlink => hlink.symm
  · rw [hlist, List.nodup_reverse]
    exact h.nodup

theorem isList_nil (hnext : next head = tail) (hprev : prev tail = head) (hne : head ≠ tail) :
    IsList next prev head tail [] :=
  ⟨List.isChain_pair.mpr ⟨hnext, hprev⟩, by simpa using hne⟩

section Splice

variable [DecidableEq ν]

theorem Linked.insert {front back : List ν} {a b x : ν}
    (h : Linked next prev (front ++ a :: b :: back))
    (hnodup : (front ++ a :: b :: back).Nodup) (hx : x ∉ front ++ a :: b :: back) :
    Linked (Function.update (Function.update next a x) x b)
      (Function.update (Function.update prev x a) b x) (front ++ a :: x :: b :: back) := by
  obtain ⟨hfront, ⟨hab, hba⟩, hback⟩ := List.isChain_append_cons_cons.mp h
  rw [List.append_cons, List.nodup_append] at hnodup
  obtain ⟨-, -, hdisjoint⟩ := hnodup
  have hne : ∀ {u : ν}, u ∈ front ++ a :: b :: back → u ≠ x := fun hu heq => hx (heq ▸ hu)
  have hax : a ≠ x := hne (by simp)
  have hbx : b ≠ x := hne (by simp)
  have hxa : Function.update next a x a = x := Function.update_self a x next
  refine List.isChain_append_cons_cons.mpr ⟨?_, ⟨?_, ?_⟩, List.isChain_cons_cons.mpr
    ⟨⟨?_, ?_⟩, ?_⟩⟩
  · -- a link of the front part neither starts at `a` nor ends at `b`
    refine hfront.imp_of_mem_imp fun u v hu hv huv => ?_
    have hua : u ≠ a := by
      rintro rfl
      exact hdisjoint v hv v (by simp [← huv.1, hab]) rfl
    have hvb : v ≠ b := fun heq => hdisjoint v hv b (by simp) heq
    have hux : u ≠ x := hne (by simp at hu ⊢; tauto)
    have hvx : v ≠ x := hne (by simp at hv ⊢; tauto)
    simpa [Function.update_of_ne, hua, hvb, hux, hvx] using huv
  · rw [Function.update_of_ne hax, hxa]
  · rw [Function.update_of_ne hbx.symm, Function.update_self]
  · rw [Function.update_self]
  · rw [Function.update_self]
  · refine hback.imp_of_mem_imp fun u v hu hv huv => ?_
    have hua : u ≠ a := fun heq => hdisjoint a (by simp) u hu heq.symm
    have hvb : v ≠ b := by
      rintro rfl
      exact hdisjoint a (by simp) u hu (by rw [← huv.2, hba])
    have hux : u ≠ x := hne (by simp at hu ⊢; tauto)
    have hvx : v ≠ x := hne (by simp at hv ⊢; tauto)
    simpa [Function.update_of_ne, hua, hvb, hux, hvx] using huv

theorem Linked.remove {front back : List ν} {a b x : ν}
    (h : Linked next prev (front ++ a :: x :: b :: back))
    (hnodup : (front ++ a :: x :: b :: back).Nodup) :
    Linked (Function.update next a b) (Function.update prev b a) (front ++ a :: b :: back) := by
  obtain ⟨hfront, ⟨hax, hxa⟩, hrest⟩ := List.isChain_append_cons_cons.mp h
  obtain ⟨⟨hxb, hbx⟩, hback⟩ := List.isChain_cons_cons.mp hrest
  rw [List.append_cons, List.nodup_append] at hnodup
  obtain ⟨-, hright, hdisjoint⟩ := hnodup
  refine List.isChain_append_cons_cons.mpr ⟨?_, ⟨?_, ?_⟩, ?_⟩
  · refine hfront.imp_of_mem_imp fun u v hu hv huv => ?_
    have hua : u ≠ a := by
      rintro rfl
      exact hdisjoint v hv v (by simp [← huv.1, hax]) rfl
    have hvb : v ≠ b := fun heq => hdisjoint v hv b (by simp) heq
    simpa [Function.update_of_ne, hua, hvb] using huv
  · rw [Function.update_self]
  · rw [Function.update_self]
  · refine hback.imp_of_mem_imp fun u v hu hv huv => ?_
    have hua : u ≠ a := fun heq => hdisjoint a (by simp) u (by simp at hu ⊢; tauto) heq.symm
    have hvb : v ≠ b := by
      rintro rfl
      have hux : u = x := by rw [← huv.2, hbx]
      exact (List.nodup_cons.mp hright).1 (hux ▸ hu)
    simpa [Function.update_of_ne, hua, hvb] using huv

omit [DecidableEq ν] in
theorem IsList.split_last (h : IsList next prev head tail xs) :
    ∃ front, head :: xs = front ++ [prev tail] := by
  obtain ⟨front, a, hfront⟩ :=
    (List.eq_nil_or_concat' (head :: xs)).resolve_left (List.cons_ne_nil _ _)
  have hlinked := h.linked
  rw [← List.cons_append, hfront, List.append_assoc] at hlinked
  obtain ⟨-, hlink, -⟩ := List.isChain_append_cons_cons.mp hlinked
  exact ⟨front, by rw [hfront, hlink.2]⟩

theorem IsList.insert_last {x : ν} (h : IsList next prev head tail xs)
    (hx : x ∉ head :: (xs ++ [tail])) :
    IsList (Function.update (Function.update next (prev tail) x) x tail)
      (Function.update (Function.update prev x (prev tail)) tail x) head tail (xs ++ [x]) := by
  obtain ⟨front, hfront⟩ := h.split_last
  have hold : head :: (xs ++ [tail]) = front ++ prev tail :: tail :: [] := by
    rw [← List.cons_append, hfront, List.append_assoc]
    rfl
  have hnew : head :: (xs ++ [x] ++ [tail]) = front ++ prev tail :: x :: tail :: [] := by
    rw [List.append_assoc, ← List.cons_append, hfront, List.append_assoc]
    rfl
  have hlinked := h.linked
  have hnodup := h.nodup
  rw [hold] at hlinked hnodup hx
  refine ⟨?_, ?_⟩
  · rw [hnew]
    exact hlinked.insert hnodup hx
  · have hperm :
        (head :: (xs ++ [x] ++ [tail])).Perm (x :: (front ++ prev tail :: tail :: [])) := by
      rw [hnew, List.append_cons, List.append_cons front (prev tail) [tail]]
      exact List.perm_middle
    exact hperm.nodup_iff.mpr (List.nodup_cons.mpr ⟨hx, hnodup⟩)

omit [DecidableEq ν] in
/-- The nodes around a node of the list: its links lead to them, and they are other nodes. -/
theorem IsList.split_at {x : ν} (h : IsList next prev head tail xs) (hx : x ∈ xs) :
    ∃ before after front back, xs = before ++ x :: after ∧ x ∉ before ∧
      head :: before = front ++ [prev x] ∧ after ++ [tail] = next x :: back := by
  obtain ⟨before, after, rfl, hbefore⟩ := List.eq_append_cons_of_mem hx
  obtain ⟨front, a, hfront⟩ := (List.eq_nil_or_concat' (head :: before)).resolve_left
    (List.cons_ne_nil _ _)
  obtain ⟨b, back, hback⟩ := List.exists_cons_of_ne_nil
    (List.append_ne_nil_of_right_ne_nil after (List.cons_ne_nil tail []))
  have hlinked := h.linked
  rw [List.append_assoc, ← List.cons_append, hfront, List.cons_append, hback,
    List.append_assoc] at hlinked
  obtain ⟨-, ⟨-, hprev⟩, hrest⟩ := List.isChain_append_cons_cons.mp hlinked
  obtain ⟨⟨hnext, -⟩, -⟩ := List.isChain_cons_cons.mp hrest
  exact ⟨before, after, front, back, rfl, hbefore, by rw [hfront, hprev], by rw [hback, hnext]⟩

omit [DecidableEq ν] in
/-- The links of a node lead into the list, and backwards to another node. -/
theorem IsList.neighbours {x : ν} (h : IsList next prev head tail xs) (hx : x ∈ xs) :
    prev x ∈ head :: (xs ++ [tail]) ∧ next x ∈ head :: (xs ++ [tail]) ∧ prev x ≠ x := by
  obtain ⟨before, after, front, back, rfl, -, hfront, hback⟩ := h.split_at hx
  have hprev : prev x ∈ head :: before := by simp [hfront]
  have hnext : next x ∈ after ++ [tail] := by simp [hback]
  have hnodup := h.nodup
  rw [List.append_assoc, ← List.cons_append] at hnodup
  refine ⟨?_, ?_, (List.nodup_append.mp hnodup).2.2 _ hprev x (by simp)⟩
  · simp only [List.mem_cons, List.mem_append] at hprev ⊢
    tauto
  · simp only [List.mem_cons, List.mem_append] at hnext ⊢
    tauto

theorem IsList.remove {x : ν} (h : IsList next prev head tail xs) (hx : x ∈ xs) :
    IsList (Function.update next (prev x) (next x)) (Function.update prev (next x) (prev x))
      head tail (xs.erase x) := by
  obtain ⟨before, after, front, back, rfl, hbefore, hfront, hback⟩ := h.split_at hx
  have hold :
      head :: (before ++ x :: after ++ [tail]) = front ++ prev x :: x :: next x :: back := by
    rw [List.append_assoc, ← List.cons_append, hfront, List.cons_append, hback, List.append_assoc]
    rfl
  have herase : (before ++ x :: after).erase x = before ++ after := by
    rw [List.erase_append_right _ hbefore, List.erase_cons_head]
  have hnew : head :: (before ++ after ++ [tail]) = front ++ prev x :: next x :: back := by
    rw [List.append_assoc, ← List.cons_append, hfront, hback, List.append_assoc]
    rfl
  have hlinked := h.linked
  have hnodup := h.nodup
  rw [hold] at hlinked hnodup
  rw [herase]
  refine ⟨?_, ?_⟩
  · rw [hnew]
    exact hlinked.remove hnodup
  · rw [hnew]
    rw [List.append_cons] at hnodup ⊢
    exact hnodup.sublist
      ((List.sublist_cons_self x (next x :: back)).append_left (front ++ [prev x]))

end Splice

/-! ## Reading a list back -/

section Walk

variable [DecidableEq ν]

/-- Follow the links from `cur` until one leads to `stop`, collecting the nodes. `none` when the
fuel does not suffice. -/
def walk (next : ν → ν) (stop : ν) : Nat → ν → Option (List ν)
  | 0, _ => none
  | fuel + 1, cur =>
    if next cur = stop then some []
    else (walk next stop fuel (next cur)).map (next cur :: ·)

/-- Walking a chain of links visits its nodes. -/
theorem walk_of_chain {stop cur : ν} (hchain : (cur :: (xs ++ [stop])).IsChain (next · = ·))
    (hstop : stop ∉ xs) {fuel : Nat} (hfuel : xs.length < fuel) :
    walk next stop fuel cur = some xs := by
  induction xs generalizing cur fuel with
  | nil =>
    obtain ⟨fuel, rfl⟩ := Nat.exists_eq_add_one_of_ne_zero (Nat.ne_of_gt hfuel)
    simp [walk, List.isChain_pair.mp hchain]
  | cons x xs ih =>
    obtain ⟨fuel, rfl⟩ :=
      Nat.exists_eq_add_one_of_ne_zero (Nat.ne_of_gt (Nat.zero_lt_of_lt hfuel))
    obtain ⟨hlink, hrest⟩ := List.isChain_cons_cons.mp hchain
    have hne : x ≠ stop := fun heq => hstop (by simp [heq])
    rw [walk, hlink, if_neg hne, ih hrest (fun hmem => hstop (by simp [hmem]))
      (by simpa using hfuel)]
    rfl

theorem IsList.walk_next (h : IsList next prev head tail xs) {fuel : Nat}
    (hfuel : xs.length < fuel) : walk next tail fuel head = some xs := by
  refine walk_of_chain (h.linked.imp fun _ _ hlink => hlink.1) ?_ hfuel
  intro hmem
  exact (List.nodup_append.mp (List.nodup_cons.mp h.nodup).2).2.2 tail hmem tail (by simp) rfl

theorem IsList.walk_prev (h : IsList next prev head tail xs) {fuel : Nat}
    (hfuel : xs.length < fuel) : walk prev head fuel tail = some xs.reverse :=
  h.reverse.walk_next (by simpa using hfuel)

/-! ## Moving the nodes -/

/-- Follow the links from `cur` until one leads to `stop`, replacing each by its shifted value
before following it. -/
def relink (shift : ν → ν) (stop : ν) : Nat → (ν → ν) → ν → Option (ν → ν)
  | 0, _, _ => none
  | fuel + 1, next, cur =>
    if next cur = stop then some next
    else relink shift stop fuel (Function.update next cur (shift (next cur))) (shift (next cur))

/-- The links that `relink` will meet: each leads to an old node, whose own link is stored under
its shifted address. -/
def Pending (next shift : ν → ν) (stop : ν) : ν → List ν → Prop
  | cur, [] => next cur = stop
  | cur, x :: xs => next cur = x ∧ x ≠ stop ∧ Pending next shift stop (shift x) xs

omit [DecidableEq ν] in
theorem Pending.congr {next' shift : ν → ν} {stop cur : ν}
    (h : Pending next shift stop cur xs)
    (hagree : ∀ a ∈ cur :: xs.map shift, next' a = next a) : Pending next' shift stop cur xs := by
  induction xs generalizing cur with
  | nil => exact (hagree cur (by simp)).trans h
  | cons x xs ih =>
    obtain ⟨hlink, hne, hrest⟩ := h
    exact ⟨(hagree cur (by simp)).trans hlink, hne,
      ih hrest fun a ha => hagree a (List.mem_cons_of_mem _ (by simpa using ha))⟩

omit [DecidableEq ν] in
/-- A chain whose nodes were copied to shifted addresses is pending. -/
theorem pending_of_chain {next' shift : ν → ν} {stop cur cur' : ν}
    (hchain : (cur :: (xs ++ [stop])).IsChain (next · = ·)) (hstop : stop ∉ xs)
    (hstart : next' cur' = next cur) (hcopy : ∀ x ∈ xs, next' (shift x) = next x) :
    Pending next' shift stop cur' xs := by
  induction xs generalizing cur cur' with
  | nil => exact hstart.trans (List.isChain_cons_cons.mp hchain).1
  | cons x xs ih =>
    obtain ⟨hlink, hrest⟩ := List.isChain_cons_cons.mp hchain
    exact ⟨hstart.trans hlink, fun heq => hstop (by simp [heq]),
      ih hrest (fun hmem => hstop (by simp [hmem])) (hcopy x (by simp))
        fun y hy => hcopy y (by simp [hy])⟩

/-- Relinking turns pending links into a chain through the shifted nodes and touches no other
link. -/
theorem Pending.relink {shift : ν → ν} {stop cur : ν} (h : Pending next shift stop cur xs)
    (hnodup : (cur :: xs.map shift).Nodup) {fuel : Nat} (hfuel : xs.length < fuel) :
    ∃ next', Base.relink shift stop fuel next cur = some next' ∧
      (cur :: (xs.map shift ++ [stop])).IsChain (next' · = ·) ∧
      ∀ a ∉ cur :: xs.map shift, next' a = next a := by
  induction xs generalizing next cur fuel with
  | nil =>
    obtain ⟨fuel, rfl⟩ := Nat.exists_eq_add_one_of_ne_zero (Nat.ne_of_gt hfuel)
    have hlink : next cur = stop := h
    exact ⟨next, by simp [Base.relink, hlink], List.isChain_pair.mpr hlink, fun _ _ => rfl⟩
  | cons x xs ih =>
    obtain ⟨fuel, rfl⟩ :=
      Nat.exists_eq_add_one_of_ne_zero (Nat.ne_of_gt (Nat.zero_lt_of_lt hfuel))
    obtain ⟨hlink, hne, hrest⟩ := h
    obtain ⟨hcur, hnodup'⟩ := List.nodup_cons.mp hnodup
    have hpending : Pending (Function.update next cur (shift x)) shift stop (shift x) xs := by
      refine hrest.congr fun a ha => Function.update_of_ne ?_ _ _
      rintro rfl
      exact hcur ha
    obtain ⟨next', hrun, hchain, hframe⟩ := ih hpending hnodup' (by simpa using hfuel)
    refine ⟨next', ?_, List.isChain_cons_cons.mpr ⟨?_, hchain⟩, ?_⟩
    · rw [Base.relink, hlink, if_neg hne, hrun]
    · rw [hframe cur hcur, Function.update_self]
    · intro a ha
      rw [List.map_cons, List.mem_cons, not_or] at ha
      rw [hframe a ha.2, Function.update_of_ne ha.1]

omit [DecidableEq ν] in
/-- A list whose nodes were copied to shifted addresses is pending from its head. -/
theorem IsList.pending {next' shift : ν → ν} (h : IsList next prev head tail xs)
    (hhead : next' head = next head) (hcopy : ∀ x ∈ xs, next' (shift x) = next x) :
    Pending next' shift tail head xs := by
  refine pending_of_chain (h.linked.imp fun _ _ hlink => hlink.1) ?_ hhead hcopy
  intro hmem
  exact (List.nodup_append.mp (List.nodup_cons.mp h.nodup).2).2.2 tail hmem tail (by simp) rfl

/-- After the nodes of a list were copied to shifted addresses, relinking forwards from `head` and
backwards from `tail` makes the copies a list. -/
theorem IsList.relocate {next' prev' shift : ν → ν} (h : IsList next prev head tail xs)
    (hnodup : (head :: (xs.map shift ++ [tail])).Nodup)
    (hhead : next' head = next head) (htail : prev' tail = prev tail)
    (hnext : ∀ x ∈ xs, next' (shift x) = next x) (hprev : ∀ x ∈ xs, prev' (shift x) = prev x)
    {fuel : Nat} (hfuel : xs.length < fuel) :
    ∃ next'' prev'', relink shift tail fuel next' head = some next'' ∧
      relink shift head fuel prev' tail = some prev'' ∧
      IsList next'' prev'' head tail (xs.map shift) ∧
      (∀ a ∉ head :: xs.map shift, next'' a = next' a) ∧
      ∀ a ∉ tail :: xs.map shift, prev'' a = prev' a := by
  have hforward : Pending next' shift tail head xs := h.pending hhead hnext
  have hbackward : Pending prev' shift head tail xs.reverse :=
    h.reverse.pending htail fun x hx => hprev x (by simpa using hx)
  have hnodupForward : (head :: xs.map shift).Nodup :=
    hnodup.sublist (List.Sublist.cons_cons head (List.sublist_append_left _ _))
  have hnodupBackward : (tail :: xs.reverse.map shift).Nodup := by
    rw [List.map_reverse, ← List.nodup_reverse, List.reverse_cons, List.reverse_reverse]
    exact (List.nodup_cons.mp hnodup).2
  obtain ⟨next'', hrun, hchain, hframe⟩ := hforward.relink hnodupForward hfuel
  obtain ⟨prev'', hrun', hchain', hframe'⟩ :=
    hbackward.relink hnodupBackward (show xs.reverse.length < fuel by simpa using hfuel)
  refine ⟨next'', prev'', hrun, hrun', ⟨?_, hnodup⟩, hframe, ?_⟩
  · have hrev : tail :: (xs.reverse.map shift ++ [head]) =
        (head :: (xs.map shift ++ [tail])).reverse := by simp
    rw [hrev, List.isChain_reverse] at hchain'
    rw [List.isChain_iff_forall_rel_of_append_cons_cons] at hchain hchain'
    refine List.isChain_iff_forall_rel_of_append_cons_cons.mpr ?_
    intro a b front back hsplit
    exact ⟨hchain hsplit, hchain' hsplit⟩
  · intro a ha
    refine hframe' a fun hmem => ha ?_
    simpa using hmem

end Walk

/-! ## Lists that end with a null pointer -/

/-- From a pointer on, the links lead through these nodes to a null pointer. -/
def Leads (link : ν → Option ν) : Option ν → List ν → Prop
  | start, [] => start = none
  | start, x :: xs => start = some x ∧ Leads link (link x) xs

section Leads

variable {link link' : ν → Option ν} {start : Option ν} {x y : ν}

theorem Leads.congr (h : Leads link start xs) (hlink : ∀ x ∈ xs, link' x = link x) :
    Leads link' start xs := by
  induction xs generalizing start with
  | nil => exact h
  | cons x xs ih =>
    refine ⟨h.1, ih ?_ fun y hy => hlink y (.tail _ hy)⟩
    rw [hlink x (.head _)]
    exact h.2

theorem Leads.concat [DecidableEq ν] (h : Leads link start xs) (hlast : xs.getLast? = some x)
    (hnodup : xs.Nodup) (hy : y ∉ xs) (hlink : link y = none) :
    Leads (Function.update link x (some y)) start (xs ++ [y]) := by
  induction xs generalizing start with
  | nil => cases hlast
  | cons z xs ih =>
    obtain ⟨hz, hnodup⟩ := List.nodup_cons.mp hnodup
    have hyxs : y ∉ xs := fun hmem => hy (.tail _ hmem)
    refine ⟨h.1, ?_⟩
    cases xs with
    | nil =>
      obtain rfl : z = x := Option.some.inj hlast
      have hyz : y ≠ z := fun heq => hy (heq ▸ .head _)
      rw [Function.update_self]
      exact ⟨rfl, by rw [Function.update_of_ne hyz, hlink]; rfl⟩
    | cons next xs =>
      rw [List.getLast?_cons_cons] at hlast
      have hzx : z ≠ x := fun heq => hz (heq ▸ List.mem_of_getLast? hlast)
      rw [Function.update_of_ne hzx]
      exact ih h.2 hlast hnodup hyxs

end Leads

end HakunaMatata.Base
