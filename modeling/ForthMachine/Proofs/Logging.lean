import ForthMachine.Proofs.Apart

/-!
# The log has no influence

Two machines that differ at most in their logs go through every line in the same way, and then they
differ at most in their logs again. What holds of the levels of the two logs is kept, if it holds
of equal levels.
-/

set_option autoImplicit false

namespace ForthMachine

open Machine

/-- The machines differ at most in their logs, whose levels are related by `S`. -/
def LogApart (S : Level → Level → Prop) (m m' : Machine) : Prop :=
  ∃ log : Log, S m.log.level log.level ∧ m' = { m with log }

namespace LogApart

variable {S : Level → Level → Prop} {m m' : Machine}

theorem refl (hS : ∀ level, S level level) (m : Machine) : LogApart S m m :=
  ⟨m.log, hS _, rfl⟩

theorem read {γ : Type} (h : LogApart S m m') (f : Machine → γ)
    (hf : ∀ m log, f { m with log } = f m) : f m' = f m := by
  obtain ⟨log, -, rfl⟩ := h
  exact hf m log

theorem change (h : LogApart S m m') (f : Machine → Machine)
    (hf : ∀ m log, f { m with log } = { f m with log }) (hlog : ∀ m, (f m).log = m.log) :
    LogApart S (f m) (f m') := by
  obtain ⟨log, hlevel, rfl⟩ := h
  exact ⟨log, by rwa [hlog], hf m log⟩

theorem iff_apart : LogApart S m m' ↔ Apart S "" [] m m' := by
  simp [LogApart, Apart, withTexts]

theorem noteOther (h : LogApart S m m') (entry : Entry) : LogApart S m (m'.note entry) :=
  iff_apart.mpr ((iff_apart.mp h).noteOther entry)

end LogApart

section Lines

variable {S : Level → Level → Prop} {α : Type} {m m' : Machine}

theorem logApart_eq_apart (S : Level → Level → Prop) : LogApart S = Apart S "" [] := by
  funext m m'
  exact propext LogApart.iff_apart

theorem logApart_lockstep (hS : ∀ level, S level level) (bounds : Bounds) :
    Lockstep (fun _ => True) bounds bounds (LogApart S) := by
  rw [logApart_eq_apart]
  exact apart_lockstep hS "" [] bounds

theorem dispatch_logApart (hS : ∀ level, S level level) (bounds : Bounds) (word : String)
    (h : LogApart S m m') :
    Option.Rel (Outcome.Agree (LogApart S)) (dispatch bounds word m) (dispatch bounds word m') := by
  rw [logApart_eq_apart] at h ⊢
  exact (dispatch_endsApart hS bounds setsOff_nil (fun _ _ => .inl rfl) h).exact

theorem runInput_logApart (hS : ∀ level, S level level) (bounds : Bounds) (h : LogApart S m m') :
    Option.Rel (Outcome.Agree (LogApart S)) (runInput bounds m) (runInput bounds m') := by
  rw [logApart_eq_apart] at h ⊢
  exact runInput_apart hS bounds h

theorem answer_logApart {o o' : Outcome Flow} (h : Outcome.Agree (LogApart S) o o') :
    (answer o').1 = (answer o).1 ∧ LogApart S (answer o).2 (answer o').2 := by
  rw [logApart_eq_apart] at h ⊢
  obtain ⟨htext, hleft⟩ := answer_apart h
  exact ⟨htext.trans String.empty_append, hleft⟩

end Lines

end ForthMachine
