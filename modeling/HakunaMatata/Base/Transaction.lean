import HakunaMatata.Base.Machine

/-!
# Methods that run in a transaction

A method works on a database and on things outside of it, and returns a value or throws. When it is
called in a transaction, an exception takes the database back to what it was before the call, and
the rest stays as the method left it. The same happens if the commit fails after the method has
returned. Read `transactional_returns` and `transactional_throws` first: in a transaction, the
database is changed only by a method that returns normally, and only if the commit succeeds.
-/

namespace HakunaMatata.Base

variable {ε δ ω σ α β : Type}

/-- What a method works on: the database, and what no transaction takes back. -/
structure World (δ ω : Type) where
  database : δ
  outside : ω
  deriving DecidableEq, Repr

/-- A method that may throw. -/
abbrev Procedure (ε δ ω : Type) := EStateM ε (World δ ω)

/-- What a call leaves, whether it has returned or thrown. -/
def left : EStateM.Result ε σ α → σ
  | .ok _ s => s
  | .error _ s => s

theorem bind_of_ok {x : EStateM ε σ α} {f : α → EStateM ε σ β} {s s' : σ} {a : α}
    (h : x s = .ok a s') : (x >>= f) s = f a s' := by
  show EStateM.bind x f s = f a s'
  rw [EStateM.bind, h]

theorem bind_of_error {x : EStateM ε σ α} {f : α → EStateM ε σ β} {s s' : σ} {e : ε}
    (h : x s = .error e s') : (x >>= f) s = .error e s' := by
  show EStateM.bind x f s = .error e s'
  rw [EStateM.bind, h]

theorem bind_returns {x : EStateM ε σ α} {f : α → EStateM ε σ β} {s s'' : σ} {b : β} :
    (x >>= f) s = .ok b s'' ↔ ∃ a s', x s = .ok a s' ∧ f a s' = .ok b s'' := by
  cases h : x s with
  | ok a s' =>
    rw [bind_of_ok h]
    exact ⟨fun hf => ⟨a, s', rfl, hf⟩, fun ⟨_, _, heq, hf⟩ => by cases heq; exact hf⟩
  | error e s' =>
    rw [bind_of_error h]
    exact ⟨nofun, fun ⟨_, _, heq, _⟩ => nomatch heq⟩

/-- Every run of the steps leads to a related state, whether they return or throw. -/
def Follows (R : σ → σ → Prop) (x : EStateM ε σ α) : Prop :=
  ∀ s, R s (left (x s))

section Follows

variable {R : σ → σ → Prop}

theorem Follows.pure (hrefl : ∀ s, R s s) (a : α) : Follows R (pure a : EStateM ε σ α) :=
  hrefl

theorem Follows.throw (hrefl : ∀ s, R s s) (e : ε) : Follows R (throw e : EStateM ε σ α) :=
  hrefl

theorem Follows.bind (htrans : ∀ s s' s'', R s s' → R s' s'' → R s s'') {x : EStateM ε σ α}
    {f : α → EStateM ε σ β} (hx : Follows R x) (hf : ∀ a, Follows R (f a)) :
    Follows R (x >>= f) := by
  intro s
  have hfirst := hx s
  cases h : x s with
  | ok a s' =>
    rw [bind_of_ok h]
    rw [h] at hfirst
    exact htrans _ _ _ hfirst (hf a s')
  | error e s' =>
    rw [bind_of_error h]
    rwa [h] at hfirst

theorem Follows.tryCatch (htrans : ∀ s s' s'', R s s' → R s' s'' → R s s'') {x : EStateM ε σ α}
    {handler : ε → EStateM ε σ α} (hx : Follows R x) (hhandler : ∀ e, Follows R (handler e)) :
    Follows R (tryCatch x handler) := by
  intro s
  have hfirst := hx s
  show R s (left (EStateM.tryCatch x handler s))
  unfold EStateM.tryCatch
  cases h : x s with
  | ok a s' => rwa [h] at hfirst
  | error e s' =>
    rw [h] at hfirst
    exact htrans _ _ _ hfirst (hhandler e s')

end Follows

/-- Call a method in a transaction. `commit` is the exception of a commit that fails. -/
def transactional (commit : Option ε) (body : Procedure ε δ ω α) : Procedure ε δ ω α := fun w =>
  match body w with
  | .ok a w' => commit.elim (.ok a w') fun e => .error e { w' with database := w.database }
  | .error e w' => .error e { w' with database := w.database }

section Transactional

variable {commit : Option ε} {body : Procedure ε δ ω α} {w w' : World δ ω} {a : α} {e : ε}

theorem transactional_of_error (h : body w = .error e w') :
    transactional commit body w = .error e { w' with database := w.database } := by
  rw [transactional, h]

theorem transactional_of_ok (h : body w = .ok a w') :
    transactional none body w = .ok a w' := by
  rw [transactional, h]
  rfl

theorem transactional_commit_fails (h : body w = .ok a w') :
    transactional (some e) body w = .error e { w' with database := w.database } := by
  rw [transactional, h]
  rfl

theorem transactional_returns :
    transactional commit body w = .ok a w' ↔ body w = .ok a w' ∧ commit = none := by
  cases hbody : body w with
  | ok b next =>
    cases commit with
    | none => simp [transactional_of_ok hbody]
    | some e => simp [transactional_commit_fails hbody]
  | error e next => simp [transactional_of_error hbody]

theorem transactional_throws (h : transactional commit body w = .error e w') :
    w'.database = w.database := by
  cases hbody : body w with
  | ok b next =>
    cases commit with
    | none =>
      rw [transactional_of_ok hbody] at h
      cases h
    | some exception =>
      rw [transactional_commit_fails hbody] at h
      cases h
      rfl
  | error e next =>
    rw [transactional_of_error hbody] at h
    cases h
    rfl

/-- What is outside of the database is left as the method has left it. -/
theorem left_transactional_outside :
    (left (transactional commit body w)).outside = (left (body w)).outside := by
  cases hbody : body w with
  | ok b next =>
    cases commit with
    | none => rw [transactional_of_ok hbody]
    | some e =>
      rw [transactional_commit_fails hbody]
      rfl
  | error e next =>
    rw [transactional_of_error hbody]
    rfl

end Transactional

end HakunaMatata.Base
