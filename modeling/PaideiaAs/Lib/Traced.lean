-- A value together with the calls that were made on the way to it. A statement about
-- both is carried through a program one call at a time.
import Mathlib.Tactic.TypeStar

namespace Trace

/-- A value, and the calls in order. -/
structure Traced (κ α : Type) where
  value : α
  calls : List κ

variable {κ α β : Type}

def call (k : κ) (a : α) : Traced κ α := ⟨a, [k]⟩

instance : Monad (Traced κ) where
  pure a := ⟨a, []⟩
  bind x f := ⟨(f x.value).value, x.calls ++ (f x.value).calls⟩

/-- Every call is fine, and so is the value. -/
def Ensures (fine : κ → Prop) (x : Traced κ α) (q : α → Prop) : Prop :=
  (∀ k ∈ x.calls, fine k) ∧ q x.value

variable {fine : κ → Prop}

theorem Ensures.pure {a : α} {q : α → Prop} (h : q a) :
    Ensures fine (pure a) q := ⟨fun _ hk => absurd hk List.not_mem_nil, h⟩

theorem Ensures.call {k : κ} {a : α} {q : α → Prop} (hk : fine k) (h : q a) :
    Ensures fine (call k a) q := by
  refine ⟨?_, h⟩
  intro k' hk'
  rw [List.mem_singleton.1 hk']
  exact hk

theorem Ensures.bind {x : Traced κ α} {f : α → Traced κ β} {p : α → Prop} {q : β → Prop}
    (hx : Ensures fine x p) (hf : ∀ a, p a → Ensures fine (f a) q) :
    Ensures fine (x >>= f) q := by
  have hrest := hf x.value hx.2
  refine ⟨?_, hrest.2⟩
  intro k hk
  rcases List.mem_append.1 hk with hk | hk
  · exact hx.1 k hk
  · exact hrest.1 k hk

theorem Ensures.mono {x : Traced κ α} {p q : α → Prop} (hx : Ensures fine x p)
    (h : ∀ a, p a → q a) : Ensures fine x q := ⟨hx.1, h _ hx.2⟩

end Trace
