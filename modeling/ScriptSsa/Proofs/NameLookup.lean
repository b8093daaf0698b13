import ScriptSsa.Proofs.LoweringTrace

/-!
Every lookup of a construction is lexical.

A lookup is observed by making it fail. `Scope.probe` looks names up as the scopes do, except that it fails at one
lookup of the reader's choice; a construction by it ends in that failure exactly when it gets to the lookup,
and up to there it goes the way the real one goes. So lookups of runs that fail later on are seen as well.
-/

namespace ScriptSsa

/-- Looks names up in their scopes, and fails at one lookup. -/
def Scope.probe (scopes : List Scope) (access : Access) (name : String) :
    List Scope → Access → String → Except Fault Resolution :=
  fun scopes' access' name' =>
    if scopes' = scopes ∧ access' = access ∧ name' = name then .error (.unslotted name)
    else Scope.resolve scopes' access' name'

/-- The construction of the script looks the name up inside these scopes. -/
def LooksUp (p : Program) (supply : Supply) (scopes : List Scope) (access : Access) (name : String) : Prop :=
  (constructUsing ⟨[], Scope.probe scopes access name⟩ p supply).1 = .error (.fault (.unslotted name))

instance {p : Program} {supply : Supply} {scopes : List Scope} {access : Access} {name : String} :
    Decidable (LooksUp p supply scopes access name) :=
  inferInstanceAs (Decidable (_ = _))

variable {p : Program} {supply : Supply}

theorem constructWith_ne_unslotted (p : Program) (supply : Supply) (name : String) :
    (constructWith p supply).1 ≠ .error (.fault (.unslotted name)) := by
  intro h
  cases refusal_of_constructUsing h with
  | lookup hnest hlooks hrule =>
      obtain ⟨r, hr, _⟩ := resolve_means hnest hlooks
      rw [hr] at hrule
      cases hrule

/-- The enclosing functions of a lookup, of which the innermost uses or declares the name. -/
theorem LooksUp.nest {scopes : List Scope} {access : Access} {name : String}
    (h : LooksUp p supply scopes access name) :
    ∃ f outer, Nest p (f :: outer) ∧ f.Looks access name ∧ scopes = (f :: outer).map Frame.scope := by
  cases refusal_of_constructUsing h with
  | lookup hnest hlooks hrule =>
      rw [Scope.probe] at hrule
      split at hrule
      · next heq =>
        obtain ⟨hscopes, rfl, rfl⟩ := heq
        exact ⟨_, _, hnest, hlooks, hscopes.symm⟩
      · obtain ⟨r, hr, _⟩ := resolve_means hnest hlooks
        rw [hr] at hrule
        cases hrule

/-- Wherever a construction looks a name up, the answer is the one that the walk over the enclosing functions
calls for, and no construction finds a variable of an enclosing function without a slot. -/
theorem lookups_are_lexical (p : Program) (supply : Supply) :
    (∀ scopes access name, LooksUp p supply scopes access name →
      ∃ fs r, Nest p fs ∧ scopes = fs.map Frame.scope ∧ Scope.resolve scopes access name = .ok r ∧
        (meaning access name 0 fs).IsAnswer name r) ∧
    ∀ name, (constructWith p supply).1 ≠ .error (.fault (.unslotted name)) := by
  refine ⟨fun scopes access name h => ?_, constructWith_ne_unslotted p supply⟩
  obtain ⟨f, outer, hnest, hlooks, rfl⟩ := h.nest
  obtain ⟨r, hr, hanswer⟩ := resolve_means hnest hlooks
  exact ⟨_, r, hnest, rfl, hr, hanswer⟩

/-- `function f(a) { return function () { a = f; }; }` -/
def closureScript : Program :=
  ⟨[.function (.plain (some "f") ["a"] [.ret (some (.function (.plain none []
    [.expr (.assign .assign (.ident "a") (.ident "f"))])))])]⟩

/-- The scopes around the assignment. -/
def closureScopes : List Scope :=
  [.ofBody none [] [.expr (.assign .assign (.ident "a") (.ident "f"))],
    .ofBody (some "f") ["a"] [.ret (some (.function (.plain none []
      [.expr (.assign .assign (.ident "a") (.ident "f"))])))],
    .ofBody none [] closureScript.body]

/-- Both names of the assignment are found one function further out, the parameter by its slot and the
function in the slot behind it. -/
theorem lookups_are_lexical_closure :
    LooksUp closureScript .fresh closureScopes .write "a" ∧
    (∃ fs r, Nest closureScript fs ∧ closureScopes = fs.map Frame.scope ∧
      Scope.resolve closureScopes .write "a" = .ok r ∧ (meaning .write "a" 0 fs).IsAnswer "a" r) ∧
    LooksUp closureScript .fresh closureScopes .read "f" ∧
    Scope.resolve closureScopes .write "a" = .ok (.slot 1 0) ∧
    Scope.resolve closureScopes .read "f" = .ok (.slot 1 1) :=
  ⟨by decide +kernel, (lookups_are_lexical closureScript .fresh).1 _ _ _ (by decide +kernel),
    by decide +kernel, by decide +kernel, by decide +kernel⟩

end ScriptSsa
