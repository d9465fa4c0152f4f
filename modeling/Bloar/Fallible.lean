import Mathlib

/-!
Programs that pass a state along and may stop with an error. The state reached
when the error was raised survives it. `Keeps` says that a program relates every
state it starts from to the state it leaves, whatever its outcome, and `Post` says
what holds of the value returned or of the error raised.
-/

namespace Bloar.Fallible

variable {σ ε α β : Type}

def Prog (σ ε α : Type) := σ → Except ε α × σ

instance : Monad (Prog σ ε) where
  pure value := fun s => (.ok value, s)
  bind x next := fun s =>
    match x s with
    | (.ok value, after) => next value after
    | (.error e, after) => (.error e, after)

def fail (e : ε) : Prog σ ε α := fun s => (.error e, s)

def get : Prog σ ε σ := fun s => (.ok s, s)

def modify (f : σ → σ) : Prog σ ε Unit := fun s => (.ok (), f s)

def ofExcept : Except ε α → Prog σ ε α
  | .ok value => pure value
  | .error e => fail e

def guard (condition : Bool) (e : ε) : Prog σ ε Unit :=
  if condition then pure () else fail e

def mapError (f : ε → ε) (x : Prog σ ε α) : Prog σ ε α := fun s =>
  match x s with
  | (.ok value, after) => (.ok value, after)
  | (.error e, after) => (.error (f e), after)

/-- Runs `cleanup` on the state `x` leaves, whatever its outcome. -/
def ensuring (cleanup : σ → σ) (x : Prog σ ε α) : Prog σ ε α := fun s =>
  ((x s).1, cleanup (x s).2)

theorem bind_run (x : Prog σ ε α) (next : α → Prog σ ε β) (s : σ) :
    (x >>= next) s =
      match x s with
      | (.ok value, after) => next value after
      | (.error e, after) => (.error e, after) := rfl

theorem bind_of_ok {x : Prog σ ε α} {next : α → Prog σ ε β} {s after : σ} {value : α}
    (ran : x s = (.ok value, after)) : (x >>= next) s = next value after := by
  rw [bind_run, ran]

theorem bind_ok_iff (x : Prog σ ε α) (next : α → Prog σ ε β) (s after : σ) (result : β) :
    (x >>= next) s = (.ok result, after) ↔
      ∃ value middle, x s = (.ok value, middle) ∧ next value middle = (.ok result, after) := by
  rw [bind_run]
  rcases ran : x s with ⟨outcome, middle⟩
  cases outcome with
  | ok value =>
    constructor
    · intro rest
      exact ⟨value, middle, rfl, rest⟩
    · rintro ⟨value', middle', same, rest⟩
      cases same
      exact rest
  | error e =>
    constructor
    · intro impossible
      cases impossible
    · rintro ⟨value', middle', same, _⟩
      cases same

section Keeps

/-- Every outcome of `x`, an error included, leaves a state related to the one
it started from. -/
def Keeps (R : σ → σ → Prop) (x : Prog σ ε α) : Prop := ∀ s, R s (x s).2

/-- What a relation between states needs for `Keeps` to follow the structure of
a program. -/
structure Preorder (R : σ → σ → Prop) : Prop where
  refl : ∀ s, R s s
  trans : ∀ {a b c}, R a b → R b c → R a c

attribute [class] Preorder

variable {R : σ → σ → Prop}

theorem keeps_pure [order : Preorder R] (value : α) : Keeps R (pure value : Prog σ ε α) :=
  fun s => order.refl s

theorem keeps_fail [order : Preorder R] (e : ε) : Keeps R (fail e : Prog σ ε α) :=
  fun s => order.refl s

theorem keeps_get [order : Preorder R] : Keeps R (get : Prog σ ε σ) :=
  fun s => order.refl s

theorem keeps_modify {f : σ → σ} (kept : ∀ s, R s (f s)) : Keeps R (modify f : Prog σ ε Unit) :=
  kept

theorem keeps_ofExcept [order : Preorder R] (x : Except ε α) :
    Keeps R (ofExcept x : Prog σ ε α) := by
  cases x with
  | ok value => exact keeps_pure value
  | error e => exact keeps_fail e

theorem keeps_guard [order : Preorder R] (condition : Bool) (e : ε) :
    Keeps R (guard condition e : Prog σ ε Unit) := by
  cases condition with
  | true => exact keeps_pure ()
  | false => exact keeps_fail e

variable {x : Prog σ ε α} {next : α → Prog σ ε β}

theorem keeps_bind [order : Preorder R] (first : Keeps R x)
    (second : ∀ value, Keeps R (next value)) : Keeps R (x >>= next) := by
  intro s
  have step := first s
  rw [bind_run]
  rcases ran : x s with ⟨outcome, middle⟩
  rw [ran] at step
  cases outcome with
  | ok value => exact order.trans step (second value middle)
  | error e => exact step

theorem keeps_mapError {f : ε → ε} (kept : Keeps R x) : Keeps R (mapError f x) := by
  intro s
  have step := kept s
  unfold mapError
  rcases ran : x s with ⟨outcome, after⟩
  rw [ran] at step
  cases outcome with
  | ok | error => exact step

variable {cleanup : σ → σ} {condition : Prop} {y : Prog σ ε α}

theorem keeps_ensuring [order : Preorder R] (kept : Keeps R x) (clean : ∀ s, R s (cleanup s)) :
    Keeps R (ensuring cleanup x) :=
  fun s => order.trans (kept s) (clean _)

theorem keeps_ite [Decidable condition] (left : condition → Keeps R x)
    (right : ¬ condition → Keeps R y) : Keeps R (if condition then x else y) := by
  by_cases chosen : condition
  · simpa [chosen] using left chosen
  · simpa [chosen] using right chosen

/-- An error of `x` leaves a state related to the one it started from. A program
whose last step commits an effect keeps `R` this far. -/
def KeepsOnError (R : σ → σ → Prop) (x : Prog σ ε α) : Prop :=
  ∀ s e after, x s = (.error e, after) → R s after

theorem Keeps.onError (kept : Keeps R x) : KeepsOnError R x := by
  intro s e after raised
  have step := kept s
  rw [raised] at step
  exact step

theorem keepsOnError_bind [order : Preorder R] (first : Keeps R x)
    (second : ∀ value, KeepsOnError R (next value)) : KeepsOnError R (x >>= next) := by
  intro s e after raised
  have step := first s
  rw [bind_run] at raised
  rcases ran : x s with ⟨outcome, middle⟩
  rw [ran] at step raised
  cases outcome with
  | ok value => exact order.trans step (second value middle e after raised)
  | error e' =>
    cases raised
    exact step

/-- A program whose rest cannot fail raises only its first part's errors. -/
theorem keepsOnError_bind_total (first : KeepsOnError R x)
    (total : ∀ value s, ∃ r after, next value s = (.ok r, after)) :
    KeepsOnError R (x >>= next) := by
  intro s e after raised
  rw [bind_run] at raised
  rcases ran : x s with ⟨outcome, middle⟩
  rw [ran] at raised
  cases outcome with
  | ok value =>
    obtain ⟨r, last, returned⟩ := total value middle
    dsimp only at raised
    rw [returned] at raised
    cases raised
  | error e' =>
    cases raised
    exact first s e after ran

theorem keepsOnError_ensuring [order : Preorder R] (kept : KeepsOnError R x)
    (clean : ∀ s, R s (cleanup s)) : KeepsOnError R (ensuring cleanup x) := by
  intro s e after raised
  obtain ⟨outcome, rfl⟩ := Prod.mk.inj raised
  exact order.trans (kept s e (x s).2 (Prod.ext outcome rfl)) (clean _)

theorem keepsOnError_ite [Decidable condition] (left : condition → KeepsOnError R x)
    (right : ¬ condition → KeepsOnError R y) : KeepsOnError R (if condition then x else y) := by
  by_cases chosen : condition
  · simpa [chosen] using left chosen
  · simpa [chosen] using right chosen

end Keeps

section Post

/-- Run from `s`, the program returns a value satisfying `Q` together with the
state it leaves, or raises an error satisfying `E`. -/
def Post (x : Prog σ ε α) (s : σ) (Q : α → σ → Prop) (E : ε → Prop) : Prop :=
  match x s with
  | (.ok value, after) => Q value after
  | (.error e, _) => E e

variable {P Q : α → σ → Prop} {E E' : ε → Prop} {s : σ}

variable {value : α} {e : ε} {x : Prog σ ε α} {next : α → Prog σ ε β}

theorem post_pure (holds : Q value s) : Post (pure value) s Q E := holds

theorem post_fail (holds : E e) : Post (fail e : Prog σ ε α) s Q E := holds

theorem post_modify {f : σ → σ} {Q : Unit → σ → Prop} (holds : Q () (f s)) :
    Post (modify f : Prog σ ε Unit) s Q E := holds

theorem post_mono (ran : Post x s P E') (returned : ∀ value after, P value after → Q value after)
    (raised : ∀ e, E' e → E e) : Post x s Q E := by
  unfold Post at *
  rcases run : x s with ⟨outcome, after⟩
  rw [run] at ran
  cases outcome with
  | ok value => exact returned value after ran
  | error e => exact raised e ran

theorem post_raised (ran : Post x s Q E') (raised : ∀ e, E' e → E e) : Post x s Q E :=
  post_mono ran (fun _ _ returned => returned) raised

theorem post_get_bind {next : σ → Prog σ ε α} (rest : Post (next s) s Q E) :
    Post (get >>= next) s Q E := rest

theorem post_pure_bind {Q : β → σ → Prop} (rest : Post (next value) s Q E) :
    Post (pure value >>= next) s Q E := rest

theorem post_modify_bind {f : σ → σ} {next : Unit → Prog σ ε α}
    (rest : Post (next ()) (f s) Q E) : Post (modify f >>= next) s Q E := rest

/-- The relation a program keeps is available to whatever runs after it. -/
theorem post_bind {R : σ → σ → Prop} {Q : β → σ → Prop} (kept : Keeps R x) (first : Post x s P E)
    (second : ∀ value after, P value after → R s after → Post (next value) after Q E) :
    Post (x >>= next) s Q E := by
  have related := kept s
  unfold Post at first ⊢
  rw [bind_run]
  rcases run : x s with ⟨outcome, middle⟩
  rw [run] at first related
  cases outcome with
  | ok value => exact second value middle first related
  | error e => exact first

theorem post_then {Q : β → σ → Prop} (first : Post x s P E)
    (second : ∀ value after, P value after → Post (next value) after Q E) :
    Post (x >>= next) s Q E := by
  have kept : Keeps (fun _ _ => True) x := fun _ => trivial
  exact post_bind kept first fun value after holds _ => second value after holds

theorem post_any (x : Prog σ ε α) : Post x s (fun _ _ => True) (fun _ => True) := by
  unfold Post
  split <;> trivial

theorem post_bind_run {Q : β → σ → Prop} (raised : ∀ e after, x s = (.error e, after) → E e)
    (returned : ∀ value after, x s = (.ok value, after) → Post (next value) after Q E) :
    Post (x >>= next) s Q E := by
  unfold Post
  rw [bind_run]
  rcases run : x s with ⟨outcome, middle⟩
  cases outcome with
  | ok value => exact returned value middle run
  | error e => exact raised e middle run

theorem post_mapError {f : ε → ε} (ran : Post x s Q E') (raised : ∀ e, E' e → E (f e)) :
    Post (mapError f x) s Q E := by
  unfold Post mapError at *
  rcases run : x s with ⟨outcome, after⟩
  rw [run] at ran
  cases outcome with
  | ok value => exact ran
  | error e => exact raised e ran

theorem post_ensuring {cleanup : σ → σ}
    (ran : Post x s (fun value after => Q value (cleanup after)) E) :
    Post (ensuring cleanup x) s Q E := by
  unfold Post ensuring at *
  rcases run : x s with ⟨outcome, after⟩
  rw [run] at ran
  cases outcome with
  | ok | error => exact ran

theorem post_ofExcept {x : Except ε α} (ok : ∀ value, x = .ok value → Q value s)
    (error : ∀ e, x = .error e → E e) : Post (ofExcept x) s Q E := by
  cases x with
  | ok value => exact ok value rfl
  | error e => exact error e rfl

theorem post_guard {condition : Bool} {Q : Unit → σ → Prop} (passed : condition = true → Q () s)
    (refused : condition = false → E e) : Post (guard condition e) s Q E := by
  cases condition with
  | true => exact passed rfl
  | false => exact refused rfl

theorem post_ofExcept_bind {x : Except ε α} {Q : β → σ → Prop} (error : ∀ e, x = .error e → E e)
    (ok : ∀ value, x = .ok value → Post (next value) s Q E) : Post (ofExcept x >>= next) s Q E := by
  cases x with
  | ok value => exact ok value rfl
  | error e => exact error e rfl

theorem post_guard_bind {condition : Bool} {next : Unit → Prog σ ε β} {Q : β → σ → Prop}
    (refused : condition = false → E e) (passed : condition = true → Post (next ()) s Q E) :
    Post (guard condition e >>= next) s Q E := by
  cases condition with
  | true => exact passed rfl
  | false => exact refused rfl

theorem post_ite {condition : Prop} [Decidable condition] {y : Prog σ ε α}
    (left : condition → Post x s Q E) (right : ¬ condition → Post y s Q E) :
    Post (if condition then x else y) s Q E := by
  by_cases chosen : condition
  · simpa [chosen] using left chosen
  · simpa [chosen] using right chosen

theorem post_ok (ran : Post x s Q E) {after : σ} (returned : x s = (.ok value, after)) :
    Q value after := by
  unfold Post at ran
  rw [returned] at ran
  exact ran

theorem post_returns (ran : Post x s Q E) (never : ∀ e, ¬ E e) :
    ∃ value after, x s = (.ok value, after) ∧ Q value after := by
  unfold Post at ran
  rcases run : x s with ⟨outcome, after⟩
  rw [run] at ran
  cases outcome with
  | ok value => exact ⟨value, after, rfl, ran⟩
  | error e => exact absurd ran (never e)

end Post

end Bloar.Fallible

namespace Bloar

theorem ok_of_toOption {ε α : Type} {x : Except ε α} {a : α} (isSome : x.toOption = some a) :
    x = .ok a := by
  cases x with
  | error e => cases isSome
  | ok b =>
    cases isSome
    rfl

theorem returned {ε α σ : Type} {x : Except ε α × σ} {a : α} (ok : x.1 = .ok a) : x = (.ok a, x.2) :=
  Prod.ext ok rfl

end Bloar
