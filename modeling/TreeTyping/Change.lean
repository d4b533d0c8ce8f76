import TreeTyping.Fault

/-!
# Changes

A forest and a table are changed in place by operations that may end in a fault. What such
an operation leaves behind is kept in any case. A fault takes nothing back, so whatever was
changed before it stays changed.
-/

namespace TreeTyping

/-- An operation that may change a state before it returns a value or ends in a fault. -/
abbrev Change (σ α : Type) := EStateM Fault σ α

namespace Change

variable {σ α β : Type}

/-- Looks something up in the state. -/
def look (lookup : σ → Except Fault α) : Change σ α := fun s =>
  match lookup s with
  | .ok a => .ok a s
  | .error fault => .error fault s

/-- What a change leaves behind, whether or not it ends in a fault. -/
def leaving (change : Change σ α) (s : σ) : σ :=
  match change s with
  | .ok _ s' => s'
  | .error _ s' => s'

section Outcomes

variable {x : Change σ α} {f : α → Change σ β} {s u : σ} {a : α} {b : β} {fault : Fault}

theorem leaving_of_ok (h : x s = .ok a u) : x.leaving s = u := by
  simp only [leaving, h]

theorem leaving_of_error (h : x s = .error fault u) : x.leaving s = u := by
  simp only [leaving, h]

theorem bind_of_ok (h : x s = .ok a u) : (x >>= f) s = f a u := by
  simp only [bind, EStateM.bind, h]

theorem bind_of_error (h : x s = .error fault u) : (x >>= f) s = .error fault u := by
  simp only [bind, EStateM.bind, h]

/-- Two changes in a row succeed if the first does and then the second. -/
theorem bind_eq_ok_iff :
    (x >>= f) s = .ok b u ↔ ∃ a s', x s = .ok a s' ∧ f a s' = .ok b u := by
  cases hx : x s with
  | ok a s' => simp [bind_of_ok hx, and_assoc]
  | error fault s' => simp [bind_of_error hx]

/-- Two changes in a row fail if the first does, or else the second. -/
theorem bind_eq_error_iff :
    (x >>= f) s = .error fault u ↔
      x s = .error fault u ∨ ∃ a s', x s = .ok a s' ∧ f a s' = .error fault u := by
  cases hx : x s with
  | ok a s' => simp [bind_of_ok hx, and_assoc]
  | error fault s' => simp [bind_of_error hx]

theorem look_eq_ok_iff {lookup : σ → Except Fault α} :
    look lookup s = .ok a u ↔ lookup s = .ok a ∧ u = s := by
  unfold look
  cases lookup s <;> simp [eq_comm]

theorem look_eq_error_iff {lookup : σ → Except Fault α} :
    look lookup s = .error fault u ↔ lookup s = .error fault ∧ u = s := by
  unfold look
  cases lookup s <;> simp [eq_comm]

end Outcomes

/-- A change that changes nothing. -/
def Reads (x : Change σ α) : Prop := ∀ s, x.leaving s = s

namespace Reads

theorem eq_of_ok {x : Change σ α} {s u : σ} {a : α} (h : x.Reads) (hx : x s = .ok a u) : u = s :=
  (leaving_of_ok hx).symm.trans (h s)

theorem eq_of_error {x : Change σ α} {s u : σ} {fault : Fault} (h : x.Reads)
    (hx : x s = .error fault u) : u = s :=
  (leaving_of_error hx).symm.trans (h s)

theorem look (lookup : σ → Except Fault α) : (Change.look lookup).Reads := by
  intro s
  unfold leaving Change.look
  cases lookup s <;> rfl

theorem pure (a : α) : Reads (pure a : Change σ α) := fun _ => rfl

theorem bind {x : Change σ α} {f : α → Change σ β} (hx : x.Reads) (hf : ∀ a, (f a).Reads) :
    Reads (x >>= f) := by
  intro s
  cases h : x s with
  | ok a u =>
      obtain rfl := hx.eq_of_ok h
      simpa only [leaving, bind_of_ok h] using hf a u
  | error fault u =>
      obtain rfl := hx.eq_of_error h
      simp only [leaving, bind_of_error h]

end Reads

end Change

end TreeTyping
