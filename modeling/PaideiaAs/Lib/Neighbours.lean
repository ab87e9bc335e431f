-- A pass over a list that turns round some neighbours: a pair that is turned round is
-- left behind, so no element moves by more than one place.
import Mathlib.Data.Fin.Basic
import Mathlib.Data.List.Basic

namespace Neighbours

variable {α : Type} (p : α → α → Bool)

/-- The list with the neighbours that trade places turned round. -/
def turn : List α → List α
  | [] => []
  | [x] => [x]
  | x :: y :: rest => if p x y then y :: x :: turn rest else x :: turn (y :: rest)

/-- The place that the element at `k` comes from, and the place that it goes to. -/
def partner : List α → Nat → Nat
  | [], k => k
  | [_], k => k
  | x :: y :: rest, k =>
    if p x y then
      match k with
      | 0 => 1
      | 1 => 0
      | k + 2 => partner rest k + 2
    else
      match k with
      | 0 => 0
      | k + 1 => partner (y :: rest) k + 1

section

variable {p} {x y : α} (rest : List α)

theorem turn_swap (h : p x y) : turn p (x :: y :: rest) = y :: x :: turn p rest :=
  if_pos h

theorem turn_keep (h : ¬p x y) : turn p (x :: y :: rest) = x :: turn p (y :: rest) :=
  if_neg h

theorem partner_left (h : p x y) : partner p (x :: y :: rest) 0 = 1 :=
  if_pos h

theorem partner_right (h : p x y) : partner p (x :: y :: rest) 1 = 0 :=
  if_pos h

theorem partner_behind (h : p x y) (k : Nat) :
    partner p (x :: y :: rest) (k + 2) = partner p rest k + 2 :=
  if_pos h

theorem partner_head (h : ¬p x y) : partner p (x :: y :: rest) 0 = 0 :=
  if_neg h

theorem partner_skip (h : ¬p x y) (k : Nat) :
    partner p (x :: y :: rest) (k + 1) = partner p (y :: rest) k + 1 :=
  if_neg h

end

theorem getElem?_turn : (l : List α) → (k : Nat) → (turn p l)[k]? = l[partner p l k]?
  | [], _ => rfl
  | [_], _ => rfl
  | x :: y :: rest, k => by
    by_cases h : p x y
    · rw [turn_swap rest h]
      match k with
      | 0 => rw [partner_left rest h]; rfl
      | 1 => rw [partner_right rest h]; rfl
      | k + 2 => rw [partner_behind rest h]; exact getElem?_turn rest k
    · rw [turn_keep rest h]
      match k with
      | 0 => rw [partner_head rest h]; rfl
      | k + 1 => rw [partner_skip rest h]; exact getElem?_turn (y :: rest) k

theorem partner_partner : (l : List α) → (k : Nat) → partner p l (partner p l k) = k
  | [], _ => rfl
  | [_], _ => rfl
  | x :: y :: rest, k => by
    by_cases h : p x y
    · match k with
      | 0 => rw [partner_left rest h, partner_right rest h]
      | 1 => rw [partner_right rest h, partner_left rest h]
      | k + 2 => rw [partner_behind rest h, partner_behind rest h, partner_partner rest k]
    · match k with
      | 0 => rw [partner_head rest h, partner_head rest h]
      | k + 1 => rw [partner_skip rest h, partner_skip rest h, partner_partner (y :: rest) k]

theorem partner_near : (l : List α) → (k : Nat) → partner p l k ≤ k + 1 ∧ k ≤ partner p l k + 1
  | [], k => ⟨Nat.le_succ k, Nat.le_succ k⟩
  | [_], k => ⟨Nat.le_succ k, Nat.le_succ k⟩
  | x :: y :: rest, k => by
    by_cases h : p x y
    · match k with
      | 0 => rw [partner_left rest h]; omega
      | 1 => rw [partner_right rest h]; omega
      | k + 2 =>
        have hrest := partner_near rest k
        rw [partner_behind rest h]
        omega
    · match k with
      | 0 => rw [partner_head rest h]; omega
      | k + 1 =>
        have hrest := partner_near (y :: rest) k
        rw [partner_skip rest h]
        omega

theorem partner_lt : {l : List α} → {k : Nat} → k < l.length → partner p l k < l.length
  | [], _, hk => hk
  | [_], _, hk => hk
  | x :: y :: rest, k, hk => by
    simp only [List.length_cons] at hk ⊢
    by_cases h : p x y
    · match k with
      | 0 => rw [partner_left rest h]; omega
      | 1 => rw [partner_right rest h]; omega
      | k + 2 =>
        have hrest : partner p rest k < rest.length := partner_lt (by omega)
        rw [partner_behind rest h]
        omega
    · match k with
      | 0 => rw [partner_head rest h]; omega
      | k + 1 =>
        have hrest : partner p (y :: rest) k < rest.length + 1 :=
          partner_lt (by rw [List.length_cons]; omega)
        rw [partner_skip rest h]
        omega

variable {p}

/-- What trades with nothing stays where it is. -/
theorem partner_fixed {e : α} (hleft : ∀ x, p e x = false) (hright : ∀ x, p x e = false) :
    {l : List α} → {k : Nat} → l[k]? = some e → partner p l k = k
  | [], _, _ => rfl
  | [_], _, _ => rfl
  | x :: y :: rest, k, hk => by
    by_cases h : p x y
    · match k with
      | 0 =>
        cases hk
        rw [hleft y] at h
        cases h
      | 1 =>
        cases hk
        rw [hright x] at h
        cases h
      | k + 2 => rw [partner_behind rest h, @partner_fixed e hleft hright rest k hk]
    · match k with
      | 0 => exact partner_head rest h
      | k + 1 => rw [partner_skip rest h, @partner_fixed e hleft hright (y :: rest) k hk]

/-- Nothing passes what stays where it is. -/
theorem partner_lt_iff {l : List α} {b : Nat} (hb : partner p l b = b) (k : Nat) :
    partner p l k < b ↔ k < b := by
  have hnear := partner_near p l k
  have htwice := partner_partner p l k
  constructor
  · intro h
    by_contra hlt
    have heq : k = b := by omega
    rw [heq, hb] at h
    exact Nat.lt_irrefl b h
  · intro h
    by_contra hlt
    have heq : partner p l k = b := by omega
    rw [heq, hb] at htwice
    omega

def places (p : α → α → Bool) (l : List α) : Equiv.Perm (Fin l.length) where
  toFun k := ⟨partner p l k, partner_lt p k.isLt⟩
  invFun k := ⟨partner p l k, partner_lt p k.isLt⟩
  left_inv k := Fin.ext (partner_partner p l k)
  right_inv k := Fin.ext (partner_partner p l k)

theorem turn_eq_ofFn (l : List α) : turn p l = List.ofFn fun k => l.get (places p l k) := by
  apply List.ext_getElem?
  intro k
  rw [getElem?_turn, List.getElem?_ofFn]
  split
  · rename_i hk
    exact List.getElem?_eq_getElem (partner_lt p hk)
  · rename_i hk
    have hle := partner_partner p l k
    rw [List.getElem?_eq_none_iff]
    by_contra hlt
    have := partner_lt p (Nat.lt_of_not_le hlt)
    omega

end Neighbours
