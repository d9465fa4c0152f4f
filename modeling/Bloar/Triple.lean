import Bloar.Fallible

/-!
Pre- and postconditions for programs that pass a state along and may stop with an error. The
state that an error leaves has a condition of its own, so that an invariant can be followed
through an operation that fails halfway.
-/

namespace Bloar.Fallible

variable {σ ε α β : Type} {P P' : σ → Prop} {Q Q' : α → σ → Prop} {E : σ → Prop}

/-- From a state with `P` the program returns with `Q`, or it stops in a state with `E`. -/
def Triple (P : σ → Prop) (x : Prog σ ε α) (Q : α → σ → Prop) (E : σ → Prop) : Prop :=
  ∀ s, P s →
    match x s with
    | (.ok value, after) => Q value after
    | (.error _, after) => E after

theorem triple_pure {value : α} (holds : ∀ s, P s → Q value s) :
    Triple P (pure value : Prog σ ε α) Q E :=
  fun s pre => holds s pre

theorem triple_fail {e : ε} (holds : ∀ s, P s → E s) : Triple P (fail e : Prog σ ε α) Q E :=
  fun s pre => holds s pre

theorem triple_modify {f : σ → σ} {Q : Unit → σ → Prop} (holds : ∀ s, P s → Q () (f s)) :
    Triple P (modify f : Prog σ ε Unit) Q E :=
  fun s pre => holds s pre

variable {x : Prog σ ε α}

theorem triple_bind {next : α → Prog σ ε β} {R : β → σ → Prop} (first : Triple P x Q E)
    (second : ∀ value, Triple (Q value) (next value) R E) : Triple P (x >>= next) R E := by
  intro s pre
  have step := first s pre
  rw [bind_run]
  rcases ran : x s with ⟨outcome, middle⟩
  rw [ran] at step
  cases outcome with
  | ok value => exact second value middle step
  | error e => exact step

theorem triple_post (weaker : ∀ value s, Q value s → Q' value s) (ran : Triple P x Q E) :
    Triple P x Q' E := by
  intro s pre
  have step := ran s pre
  rcases run : x s with ⟨outcome, after⟩
  rw [run] at step
  cases outcome with
  | ok value => exact weaker value after step
  | error e => exact step

theorem triple_error {E' : σ → Prop} (weaker : ∀ s, E s → E' s) (ran : Triple P x Q E) :
    Triple P x Q E' := by
  intro s pre
  have step := ran s pre
  rcases run : x s with ⟨outcome, after⟩
  rw [run] at step
  cases outcome with
  | ok value => exact step
  | error e => exact weaker after step

theorem triple_guard {condition : Bool} {e : ε} (refused : ∀ s, P s → E s) :
    Triple P (guard condition e : Prog σ ε Unit) (fun _ s => P s ∧ condition = true) E := by
  cases condition with
  | true => exact fun s pre => ⟨pre, rfl⟩
  | false => exact fun s pre => refused s pre

theorem triple_ofExcept {x : Except ε α} (refused : ∀ s, P s → E s) :
    Triple P (ofExcept x : Prog σ ε α) (fun value s => P s ∧ x = .ok value) E := by
  cases x with
  | ok value => exact fun s pre => ⟨pre, rfl⟩
  | error e => exact fun s pre => refused s pre

theorem triple_ite {condition : Prop} [Decidable condition] {y : Prog σ ε α}
    (left : condition → Triple P x Q E) (right : ¬ condition → Triple P y Q E) :
    Triple P (if condition then x else y) Q E := by
  by_cases chosen : condition
  · simpa [chosen] using left chosen
  · simpa [chosen] using right chosen

theorem triple_fact {fact : Prop} (ran : fact → Triple P x Q E) :
    Triple (fun s => P s ∧ fact) x Q E :=
  fun s pre => ran pre.2 s pre.1

/-- A program is followed from each state that its precondition allows. -/
theorem triple_exact (ran : ∀ node, P node → Triple (· = node) x Q E) : Triple P x Q E :=
  fun s pre => ran s pre s rfl

theorem Triple.after {I : σ → Prop} (ran : Triple P x (fun _ => I) I) {s : σ} (pre : P s) :
    I (x s).2 := by
  have step := ran s pre
  rcases run : x s with ⟨outcome, after⟩
  rw [run] at step
  cases outcome with
  | ok | error => exact step

end Bloar.Fallible
