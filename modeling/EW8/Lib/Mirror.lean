import Mathlib

/-!
# Mirrored storage

A value is stored twice, each copy with a checksum of its own, and read from the
first copy whose checksum is right. A write rewrites the primary copy and then the
secondary one. Power may be lost in either half: the copy being written is then
torn, to anything that does not carry its own checksum by chance (`Torn`).

What can be read back, whatever is lost, is an invariant (`Sound`): the last value
written completely, or the one whose write was interrupted last. It is kept by
complete writes (`sound_write`), by a loss in the secondary half
(`Sound.interruptSecondary`), and by a loss in the primary half if the secondary copy
is whole (`Sound.interruptPrimary`); no copy is repaired but by a complete write.
-/

namespace Mirror

variable {α β : Type*} (sum : α → β)

/-- A copy of a value, with its checksum. -/
structure Copy (α β : Type*) where
  content : α
  checksum : β
  deriving DecidableEq

/-- The copy of `x` with the checksum of `x`. -/
def Copy.of (x : α) : Copy α β := ⟨x, sum x⟩

/-- The checksum of a copy is right. -/
def Copy.Passes (c : Copy α β) : Prop := sum c.content = c.checksum

instance [DecidableEq β] (c : Copy α β) : Decidable (c.Passes sum) :=
  inferInstanceAs (Decidable (_ = _))

/-- What a copy `old` can be while `x` is written to it: its checksum is right only
    if nothing has been written, or all of it. -/
def Torn (old : Copy α β) (x : α) (torn : Copy α β) : Prop :=
  torn.Passes sum → torn = .of sum x ∨ torn = old

/-- The two copies. -/
structure Store (α β : Type*) where
  pri : Copy α β
  sec : Copy α β

/-- A complete write. -/
def Store.write (x : α) : Store α β := ⟨.of sum x, .of sum x⟩

/-- The value read: that of the first copy whose checksum is right. -/
def Store.read [DecidableEq β] (m : Store α β) : Option α :=
  if m.pri.Passes sum then some m.pri.content
  else if m.sec.Passes sum then some m.sec.content
  else none

/-- Only the value of the last complete write, and that of the write interrupted last,
    can be read, and one of them can. -/
structure Sound (m : Store α β) (completed : α) (interrupted : Option α) : Prop where
  pri : m.pri.Passes sum → m.pri.content = completed ∨ some m.pri.content = interrupted
  sec : m.sec.Passes sum → m.sec.content = completed
  readable : m.pri.Passes sum ∨ m.sec.Passes sum

variable {sum} {m : Store α β} {completed x : α} {interrupted : Option α} {torn : Copy α β}

@[simp] theorem passes_of (x : α) : (Copy.of sum x).Passes sum := rfl

@[simp] theorem content_of (x : α) : (Copy.of sum x).content = x := rfl

theorem sound_write (x : α) (interrupted : Option α) :
    Sound sum (.write sum x) x interrupted where
  pri _ := .inl rfl
  sec _ := rfl
  readable := .inl rfl

/-- Power is lost in the primary half of a write, while the secondary copy is whole. -/
theorem Sound.interruptPrimary (h : Sound sum m completed interrupted)
    (htorn : Torn sum m.pri x torn) (hne : torn ≠ m.pri) (hsec : m.sec.Passes sum) :
    Sound sum { m with pri := torn } completed (some x) where
  pri hp := by
    obtain rfl := (htorn hp).resolve_right hne
    exact .inr rfl
  sec := h.sec
  readable := .inr hsec

/-- Power is lost in the secondary half of a write. -/
theorem Sound.interruptSecondary (h : Sound sum m completed interrupted)
    (htorn : Torn sum m.sec x torn) (hne : torn ≠ .of sum x) :
    Sound sum ⟨.of sum x, torn⟩ completed (some x) where
  pri _ := .inr rfl
  sec hp := by
    obtain rfl := (htorn hp).resolve_left hne
    exact h.sec hp
  readable := .inl rfl

/-- What is read is the last value written, or interrupted. -/
theorem Sound.read_eq [DecidableEq β] (h : Sound sum m completed interrupted) :
    ∃ y, m.read sum = some y ∧ (y = completed ∨ some y = interrupted) := by
  by_cases hp : m.pri.Passes sum
  · exact ⟨m.pri.content, if_pos hp, h.pri hp⟩
  · have hs := h.readable.resolve_left hp
    exact ⟨m.sec.content, by rw [Store.read, if_neg hp, if_pos hs], .inl (h.sec hs)⟩

end Mirror
