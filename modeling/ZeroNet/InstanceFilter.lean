import Mathlib.Data.List.Chain

/-!
# Call filters and their superset test

An instance filter lets each of its types through some calls, and a superset test compares
two types. The test is sound when it answers yes only if the first type lets through every
call the second one does, and exact when it answers yes in every such case too. A sound test
gains nothing along a chain of delegations, each one allowed by the test from the one before;
an exact test is moreover transitive.
-/

namespace InstanceFilter

variable {τ γ : Type}

/-- `isSuperset x o` answers yes only if `x` lets through every call `o` does. -/
def SupersetSound (filter : τ → γ → Bool) (isSuperset : τ → τ → Bool) : Prop :=
  ∀ x o, isSuperset x o = true → ∀ c, filter o c = true → filter x c = true

/-- `isSuperset x o` answers yes exactly when `x` lets through every call `o` does. -/
def SupersetExact (filter : τ → γ → Bool) (isSuperset : τ → τ → Bool) : Prop :=
  ∀ x o, isSuperset x o = true ↔ ∀ c, filter o c = true → filter x c = true

variable {filter : τ → γ → Bool} {isSuperset : τ → τ → Bool}

theorem SupersetExact.sound (h : SupersetExact filter isSuperset) :
    SupersetSound filter isSuperset :=
  fun x o hxo => (h x o).1 hxo

theorem SupersetExact.trans (h : SupersetExact filter isSuperset) {x y z : τ}
    (hxy : isSuperset x y = true) (hyz : isSuperset y z = true) : isSuperset x z = true :=
  (h x z).2 fun c hc => (h x y).1 hxy c ((h y z).1 hyz c hc)

/-- Along a chain of types, each allowed by the test from the one before, the last one lets
through only calls the first one does. -/
theorem SupersetSound.filter_of_chain (h : SupersetSound filter isSuperset) {x : τ}
    {chain : List τ} (hchain : List.IsChain (fun a b => isSuperset a b = true) (x :: chain))
    {c : γ} (hc : filter ((x :: chain).getLast (List.cons_ne_nil x chain)) c = true) :
    filter x c = true := by
  induction chain generalizing x with
  | nil => exact hc
  | cons y chain ih =>
    rw [List.isChain_cons_cons] at hchain
    rw [List.getLast_cons (List.cons_ne_nil y chain)] at hc
    exact h x y hchain.1 c (ih hchain.2 hc)

end InstanceFilter
