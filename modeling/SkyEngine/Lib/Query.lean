import Mathlib.Data.List.Basic

/-!
# Query

Programs that consult a table while they run, and what they ask it. A
program is a tree: it has ended, or it asks one question and goes on from
the answer. Running it against an oracle gives its result; the trace of the
same run gives the questions, the one that made the oracle fail included.

The tree says nothing about the oracle. So a function written as a tree
whose run is the function is a function whose questions can be spoken of.
-/

/-- A program with questions in `ι`, answers in `ω` and a result in `α`. It
may fail on its own, and the oracle may fail under it. -/
inductive Query (ι ω ε α : Type) where
  | done (r : Except ε α)
  | ask (q : ι) (k : ω → Query ι ω ε α)

namespace Query

variable {ι ω ε α β : Type}

/-- The result against one oracle. -/
def run (oracle : ι → Except ε ω) : Query ι ω ε α → Except ε α
  | .done r => r
  | .ask q k => do
      let a ← oracle q
      (k a).run oracle

/-- The questions of the same run, first to last. -/
def asked (oracle : ι → Except ε ω) : Query ι ω ε α → List ι
  | .done _ => []
  | .ask q k =>
      q :: match oracle q with
        | .ok a => (k a).asked oracle
        | .error _ => []

def pure (a : α) : Query ι ω ε α := .done (.ok a)

def fail (e : ε) : Query ι ω ε α := .done (.error e)

/-- One question, its answer the result. -/
def lookup (q : ι) : Query ι ω ε ω := .ask q pure

def bind : Query ι ω ε α → (α → Query ι ω ε β) → Query ι ω ε β
  | .done (.ok a), f => f a
  | .done (.error e), _ => .done (.error e)
  | .ask q k, f => .ask q fun a => (k a).bind f

def map (f : α → β) (x : Query ι ω ε α) : Query ι ω ε β := x.bind fun a => pure (f a)

/-! ## Runs -/

variable (oracle : ι → Except ε ω)

@[simp] theorem run_pure (a : α) : (pure a : Query ι ω ε α).run oracle = .ok a := rfl

@[simp] theorem run_done (r : Except ε α) : (done r : Query ι ω ε α).run oracle = r := rfl

@[simp] theorem run_lookup (q : ι) : (lookup q : Query ι ω ε ω).run oracle = oracle q := by
  show oracle q >>= _ = oracle q
  cases oracle q with
  | error e => rfl
  | ok a => rfl

@[simp] theorem run_bind (x : Query ι ω ε α) (f : α → Query ι ω ε β) :
    (x.bind f).run oracle = x.run oracle >>= fun a => (f a).run oracle := by
  induction x with
  | done r =>
      cases r with
      | error e => rfl
      | ok a => rfl
  | ask q k ih =>
      show oracle q >>= (fun a => ((k a).bind f).run oracle) = (oracle q >>= _) >>= _
      cases oracle q with
      | error e => rfl
      | ok a => exact ih a

@[simp] theorem run_map (f : α → β) (x : Query ι ω ε α) :
    (x.map f).run oracle = (x.run oracle).map f := by
  rw [map, run_bind]
  cases x.run oracle with
  | error e => rfl
  | ok a => rfl

/-! ## Questions -/

@[simp] theorem asked_pure (a : α) : (pure a : Query ι ω ε α).asked oracle = [] := rfl

@[simp] theorem asked_fail (e : ε) : (fail e : Query ι ω ε α).asked oracle = [] := rfl

@[simp] theorem asked_done (r : Except ε α) : (done r : Query ι ω ε α).asked oracle = [] := rfl

@[simp] theorem asked_lookup (q : ι) : (lookup q : Query ι ω ε ω).asked oracle = [q] := by
  simp only [lookup, asked, List.cons.injEq, true_and]
  cases oracle q with
  | error e => rfl
  | ok a => rfl

/-- The second program asks only if the first returned. -/
theorem asked_bind (x : Query ι ω ε α) (f : α → Query ι ω ε β) :
    (x.bind f).asked oracle = x.asked oracle ++
      match x.run oracle with
      | .ok a => (f a).asked oracle
      | .error _ => [] := by
  induction x with
  | done r =>
      cases r with
      | error e => rfl
      | ok a => rfl
  | ask q k ih =>
      simp only [bind, asked, run, List.cons_append]
      cases oracle q with
      | error e => rfl
      | ok a => exact congrArg (q :: ·) (ih a)

@[simp] theorem asked_map (f : α → β) (x : Query ι ω ε α) :
    (x.map f).asked oracle = x.asked oracle := by
  rw [map, asked_bind]
  cases x.run oracle with
  | error e => simp
  | ok a => simp

/-- A first question outside a set is a question outside it. -/
theorem forall_asked_bind {p : ι → Prop} {x : Query ι ω ε α} {f : α → Query ι ω ε β} :
    (∀ q ∈ (x.bind f).asked oracle, p q) ↔ (∀ q ∈ x.asked oracle, p q)
      ∧ ∀ a, x.run oracle = .ok a → ∀ q ∈ (f a).asked oracle, p q := by
  rw [asked_bind, List.forall_mem_append]
  cases x.run oracle with
  | error e => simp
  | ok a => simp

end Query
