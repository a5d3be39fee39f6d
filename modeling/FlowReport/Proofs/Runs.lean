import FlowReport.World

/-!
# Runs of actions

Two judgements about actions. `Preserves` is about every run, also one that fails: what held of the
world before holds of it behind. `Ensures` is about the runs that succeed, with what they return.
Both follow the way actions are put together.
-/

namespace FlowReport.Action

variable {α β : Type} {I P : World → Prop} {Q : α → World → Prop} {R : β → World → Prop}

theorem perform_bind_ok {x : Action α} {f : α → Action β} {w w' : World} {a : α}
    (h : perform x w = (.ok a, w')) : perform (x >>= f) w = perform (f a) w' := by
  change x w = (.ok a, w') at h
  show (ExceptT.bind x f) w = _
  simp only [ExceptT.bind, ExceptT.mk, bind, StateT.bind, h]
  rfl

theorem perform_bind_error {x : Action α} {f : α → Action β} {w w' : World} {e : Error}
    (h : perform x w = (.error e, w')) : perform (x >>= f) w = (.error e, w') := by
  change x w = (.error e, w') at h
  show (ExceptT.bind x f) w = _
  simp only [ExceptT.bind, ExceptT.mk, bind, StateT.bind, h]
  rfl

/-- Two steps succeed if the first one does and the second one does behind it. -/
theorem perform_bind_iff {x : Action α} {f : α → Action β} {w w' : World} {b : β} :
    perform (x >>= f) w = (.ok b, w') ↔
      ∃ a mid, perform x w = (.ok a, mid) ∧ perform (f a) mid = (.ok b, w') := by
  rcases h : perform x w with ⟨e | a, mid⟩
  · rw [perform_bind_error h]
    simp
  · rw [perform_bind_ok h]
    constructor
    · exact fun ran => ⟨a, mid, rfl, ran⟩
    · rintro ⟨a', mid', same, ran⟩
      cases same
      exact ran

/-- Two steps fail if the first one does, or the second one behind it. -/
theorem perform_bind_error_iff {x : Action α} {f : α → Action β} {w w' : World} {e : Error} :
    perform (x >>= f) w = (.error e, w') ↔ perform x w = (.error e, w') ∨
      ∃ a mid, perform x w = (.ok a, mid) ∧ perform (f a) mid = (.error e, w') := by
  rcases h : perform x w with ⟨e' | a, mid⟩
  · rw [perform_bind_error h]
    simp
  · rw [perform_bind_ok h]
    constructor
    · exact fun ran => .inr ⟨a, mid, rfl, ran⟩
    · rintro (never | ⟨a', mid', same, ran⟩)
      · cases never
      · cases same
        exact ran

/-- Doing the steps of a list one after the other comes to one of them: those before it are done. -/
inductive Reaches (f : β → Action Unit) : World → List β → β → World → Prop where
  | first {w : World} {b : β} {l : List β} : Reaches f w (b :: l) b w
  | later {w v u : World} {b c : β} {l : List β} (ran : perform (f b) w = (.ok (), v))
      (rest : Reaches f v l c u) : Reaches f w (b :: l) c u

/-- The steps that are done lie in front of the one that the list comes to. -/
theorem reaches_iff {l : List β} {f : β → Action Unit} {w v : World} {b : β} :
    Reaches f w l b v ↔ ∃ before behind, l = before ++ b :: behind ∧
      perform (before.forM f) w = (.ok (), v) := by
  constructor
  · intro h
    induction h with
    | first => exact ⟨[], _, rfl, rfl⟩
    | later ran _ ih =>
      obtain ⟨before, behind, rfl, earlier⟩ := ih
      exact ⟨_ :: before, behind, rfl, perform_bind_iff.2 ⟨(), _, ran, earlier⟩⟩
  · rintro ⟨before, behind, rfl, earlier⟩
    induction before generalizing w with
    | nil =>
      cases earlier
      exact .first
    | cons c before ih =>
      obtain ⟨_, mid, ran, earlier⟩ := perform_bind_iff.1 earlier
      exact .later ran (ih earlier)

theorem Reaches.mem {l : List β} {f : β → Action Unit} {w v : World} {b : β}
    (h : Reaches f w l b v) : b ∈ l := by
  obtain ⟨before, behind, rfl, -⟩ := reaches_iff.1 h
  simp

/-- What comes behind in the list does not matter. -/
theorem Reaches.append {l : List β} {f : β → Action Unit} {w v : World} {b : β}
    (h : Reaches f w l b v) (more : List β) : Reaches f w (l ++ more) b v := by
  induction h with
  | first => exact .first
  | later ran _ ih => exact .later ran ih

/-- Each step of a list that is done was come to. -/
theorem exists_reaches {l : List β} {f : β → Action Unit} {w w' : World}
    (ran : perform (l.forM f) w = (.ok (), w')) :
    ∀ b ∈ l, ∃ v v', Reaches f w l b v ∧ perform (f b) v = (.ok (), v') := by
  induction l generalizing w with
  | nil => simp
  | cons first l ih =>
    obtain ⟨_, mid, head, tail⟩ := perform_bind_iff.1 ran
    refine List.forall_mem_cons.2 ⟨⟨w, mid, .first, head⟩, ?_⟩
    intro b member
    obtain ⟨v, v', reached, done⟩ := ih tail b member
    exact ⟨v, v', .later head reached, done⟩

/-- A list of steps fails if it comes to one that does. -/
theorem perform_forM_error_iff {l : List β} {f : β → Action Unit} {w w' : World} {e : Error} :
    perform (l.forM f) w = (.error e, w') ↔
      ∃ b v, Reaches f w l b v ∧ perform (f b) v = (.error e, w') := by
  induction l generalizing w with
  | nil =>
    constructor
    · intro never
      cases never
    · rintro ⟨b, v, reached, -⟩
      cases reached
  | cons first l ih =>
    change perform (f first >>= fun _ => l.forM f) w = _ ↔ _
    rw [perform_bind_error_iff]
    constructor
    · rintro (failed | ⟨_, mid, ran, failed⟩)
      · exact ⟨first, w, .first, failed⟩
      · obtain ⟨b, v, reached, failed⟩ := ih.1 failed
        exact ⟨b, v, .later ran reached, failed⟩
    · rintro ⟨b, v, reached, failed⟩
      cases reached with
      | first => exact .inl failed
      | later ran rest => exact .inr ⟨(), _, ran, ih.2 ⟨b, v, rest, failed⟩⟩

/-- A step that depends on the world it is done in. -/
theorem perform_get_bind (f : World → Action α) (w : World) :
    perform (MonadState.get >>= f) w = perform (f w) w := rfl

theorem perform_ofExcept (x : Except Error α) (w : World) : perform (ofExcept x) w = (x, w) := by
  cases x <;> rfl

/-- A result is taken as it is, if there is one, and the world stays as it was. -/
theorem perform_ofExcept_bind_iff {x : Except Error α} {f : α → Action β} {w w' : World} {b : β} :
    perform (ofExcept x >>= f) w = (.ok b, w') ↔
      ∃ a, x = .ok a ∧ perform (f a) w = (.ok b, w') := by
  cases x with
  | error e =>
    rw [perform_bind_error (perform_ofExcept _ w)]
    simp
  | ok a =>
    rw [perform_bind_ok (perform_ofExcept _ w)]
    simp

theorem perform_log (level : Level) (topic : Topic) (message : Text) (w : World) :
    perform (log level topic message) w =
      (.ok (), { w with log := w.log ++ [⟨level, topic, message⟩] }) := rfl

/-- What is done with a temporary directory is done, and the directory is removed. -/
theorem perform_withDirectory (f : Path → Action α) (w : World) : perform (withDirectory f) w =
    let out := perform (f ⟨.slash, w.temporary ++ [freshName w]⟩)
      { w with tree := w.tree.put (w.temporary ++ [freshName w]) .directory }
    (out.1, { out.2 with tree := out.2.tree.remove (w.temporary ++ [freshName w]) }) := rfl

theorem perform_eq_ok {x : Action α} {w : World} {a : α}
    (h : (perform x w).1.toOption = some a) : perform x w = (.ok a, (perform x w).2) := by
  rcases ran : perform x w with ⟨e | b, w'⟩
  · rw [ran] at h
    cases h
  · rw [ran] at h
    cases h
    rfl

/-- The property holds behind every run of the action if it held before. -/
def Preserves (I : World → Prop) (x : Action α) : Prop := ∀ w, I w → I (perform x w).2

namespace Preserves

theorem pure (a : α) : Preserves I (pure a : Action α) := fun _ h => h

theorem throw (e : Error) : Preserves I (throw e : Action α) := fun _ h => h

theorem bind {x : Action α} {f : α → Action β} (first : Preserves I x)
    (second : ∀ a, Preserves I (f a)) : Preserves I (x >>= f) := by
  intro w h
  have mid := first w h
  rcases ran : perform x w with ⟨e | a, w'⟩
  · rw [perform_bind_error ran]
    rwa [ran] at mid
  · rw [perform_bind_ok ran]
    rw [ran] at mid
    exact second a w' mid

/-- A step that depends on the world it is done in. -/
theorem get_bind {f : World → Action α} (h : ∀ w, I w → I (perform (f w) w).2) :
    Preserves I (MonadState.get >>= f) := fun w => h w

theorem set {w : World} (h : I w) : Preserves I (set w : Action Unit) := fun _ _ => h

theorem ofExcept (x : Except Error α) : Preserves I (ofExcept x) := by
  cases x with
  | ok a => exact pure a
  | error e => exact throw e

theorem ite {c : Prop} [Decidable c] {x y : Action α} (yes : c → Preserves I x)
    (no : ¬ c → Preserves I y) : Preserves I (if c then x else y) := by
  by_cases h : c
  · rw [if_pos h]
    exact yes h
  · rw [if_neg h]
    exact no h

theorem forM {l : List β} {f : β → Action Unit} (each : ∀ b ∈ l, Preserves I (f b)) :
    Preserves I (l.forM f) := by
  induction l with
  | nil => exact pure ()
  | cons b l ih =>
    obtain ⟨head, tail⟩ := List.forall_mem_cons.1 each
    exact bind head fun _ => ih tail

theorem mapM {l : List β} {f : β → Action α} (each : ∀ b ∈ l, Preserves I (f b)) :
    Preserves I (l.mapM f) := by
  induction l with
  | nil => exact pure []
  | cons b l ih =>
    obtain ⟨head, tail⟩ := List.forall_mem_cons.1 each
    rw [List.mapM_cons]
    exact bind head fun _ => bind (ih tail) fun _ => pure _

end Preserves

/-- What every step of a list keeps is there when the list comes to a step. -/
theorem Reaches.keeps {l : List β} {f : β → Action Unit} {w v : World} {b : β}
    (h : Reaches f w l b v) (each : ∀ c ∈ l, Preserves I (f c)) (start : I w) : I v := by
  induction h with
  | first => exact start
  | later ran _ ih =>
    obtain ⟨head, tail⟩ := List.forall_mem_cons.1 each
    have next := head _ start
    rw [ran] at next
    exact ih tail next

/-- A run of the action that succeeds where `P` holds returns a value and leaves a world that fit
together. -/
def Ensures (P : World → Prop) (x : Action α) (Q : α → World → Prop) : Prop :=
  ∀ w a w', P w → perform x w = (.ok a, w') → Q a w'

namespace Ensures

/-- Of a step that does not matter nothing is said. -/
theorem any (x : Action α) : Ensures P x fun _ _ => True := fun _ _ _ _ _ => trivial

/-- What is a fact before the action can be used. -/
theorem fact {c : Prop} {x : Action α} (h : c → Ensures P x Q) :
    Ensures (fun w => c ∧ P w) x Q :=
  fun w a w' before ran => h before.1 w a w' before.2 ran

theorem bind {x : Action α} {f : α → Action β} (first : Ensures P x Q)
    (second : ∀ a, Ensures (Q a) (f a) R) : Ensures P (x >>= f) R := by
  intro w b w' h ran
  obtain ⟨a, mid, ran, ran'⟩ := perform_bind_iff.1 ran
  exact second a mid b w' (first w a mid h ran) ran'

/-- One world at a time. -/
theorem pointwise {x : Action α} (h : ∀ w, P w → Ensures (· = w) x Q) : Ensures P x Q :=
  fun w a w' hw ran => h w hw w a w' rfl ran

theorem from_world {x : Action α} {w : World} (h : Ensures P x Q) (hw : P w) :
    Ensures (· = w) x Q :=
  fun _ a w' same ran => h _ a w' (same ▸ hw) ran

/-- A step that depends on the world it is done in. -/
theorem get_bind {f : World → Action α} (h : ∀ w, P w → Ensures (· = w) (f w) Q) :
    Ensures P (MonadState.get >>= f) Q :=
  fun w a w' hw ran => h w hw w a w' rfl ran

theorem set {w : World} {Q : Unit → World → Prop} (h : Q () w) :
    Ensures P (set w : Action Unit) Q := by
  intro _ u w' _ ran
  cases ran
  exact h

theorem of_preserves {x : Action α} (h : Preserves I x) : Ensures I x fun _ => I := by
  intro w a w' hw ran
  have := h w hw
  rwa [ran] at this

theorem and {Q' : α → World → Prop} {x : Action α} (left : Ensures P x Q) (right : Ensures P x Q') :
    Ensures P x fun a w => Q a w ∧ Q' a w :=
  fun w a w' h ran => ⟨left w a w' h ran, right w a w' h ran⟩

theorem mono {P' : World → Prop} {Q' : α → World → Prop} {x : Action α} (h : Ensures P x Q)
    (before : ∀ w, P' w → P w) (behind : ∀ a w, Q a w → Q' a w) : Ensures P' x Q' :=
  fun w a w' hw ran => behind a w' (h w a w' (before w hw) ran)

theorem pure (a : α) (h : ∀ w, P w → Q a w) : Ensures P (pure a) Q := by
  intro w b w' hw ran
  cases ran
  exact h w hw

theorem throw (e : Error) : Ensures P (throw e : Action α) Q := by
  intro w b w' _ ran
  cases ran

theorem ite {c : Prop} [Decidable c] {x y : Action α} (yes : c → Ensures P x Q)
    (no : ¬ c → Ensures P y Q) : Ensures P (if c then x else y) Q := by
  by_cases h : c
  · rw [if_pos h]
    exact yes h
  · rw [if_neg h]
    exact no h

theorem ofExcept (x : Except Error α) :
    Ensures P (ofExcept x) fun a w => x = .ok a ∧ P w := by
  cases x with
  | ok a => exact .pure a fun _ h => ⟨rfl, h⟩
  | error e => exact .throw e

/-- Each step of a list does its own where the list comes to it, and the later ones leave it as it
is. -/
theorem forM {l : List β} {f : β → Action Unit} {E : β → World → Prop} {w : World}
    (each : ∀ b v, Reaches f w l b v → Ensures (· = v) (f b) fun _ => E b)
    (frame : l.Pairwise fun b c => Preserves (E b) (f c)) :
    Ensures (· = w) (l.forM f) fun _ w' => ∀ b ∈ l, E b w' := by
  induction l generalizing w with
  | nil => exact pure () fun _ _ => by simp
  | cons b l ih =>
    obtain ⟨after, frame⟩ := List.pairwise_cons.1 frame
    intro w₁ u w' same ran
    obtain rfl : w = w₁ := same.symm
    obtain ⟨_, mid, head, tail⟩ := perform_bind_iff.1 ran
    have own := each b w .first _ _ _ rfl head
    refine List.forall_mem_cons.2 ⟨of_preserves (Preserves.forM after) _ _ _ own tail, ?_⟩
    exact ih (fun c v reached => each c v (.later head reached)) frame _ _ _ rfl tail

/-- What holds of the members that are done grows by one member with each step of a list. -/
theorem forM_grow {l : List β} {f : β → Action Unit} {I : List β → World → Prop}
    (each : ∀ done b rest, l = done ++ b :: rest → Ensures (I done) (f b) fun _ => I (done ++ [b])) :
    Ensures (I []) (l.forM f) fun _ => I l := by
  suffices grow : ∀ done rest, l = done ++ rest → Ensures (I done) (rest.forM f) fun _ => I l from
    grow [] l rfl
  intro done rest same
  induction rest generalizing done with
  | nil =>
    rw [List.append_nil] at same
    exact pure () fun w h => same ▸ h
  | cons b rest ih =>
    refine (each done b rest same).bind ?_
    intro _
    apply ih (done ++ [b])
    rw [same, List.append_assoc]
    rfl

end Ensures

/-- The rest of an action may use what its first step ensures. -/
theorem Preserves.bind_ensures {x : Action α} {f : α → Action β} (first : Preserves I x)
    (behind : Ensures I x Q) (second : ∀ a w, Q a w → I (perform (f a) w).2) :
    Preserves I (x >>= f) := by
  intro w h
  have mid := first w h
  rcases ran : perform x w with ⟨e | a, w'⟩
  · rw [perform_bind_error ran]
    rwa [ran] at mid
  · rw [perform_bind_ok ran]
    exact second a w' (behind w a w' h ran)

/-- Every error that the action can stop with has the property. -/
def Raises (H : Error → Prop) (x : Action α) : Prop :=
  ∀ w e w', perform x w = (.error e, w') → H e

namespace Raises

variable {H : Error → Prop}

theorem pure (a : α) : Raises H (pure a : Action α) := by
  intro w e w' ran
  cases ran

theorem throw {e : Error} (h : H e) : Raises H (throw e : Action α) := by
  intro w e' w' ran
  cases ran
  exact h

theorem bind {x : Action α} {f : α → Action β} (first : Raises H x)
    (second : ∀ a, Raises H (f a)) : Raises H (x >>= f) := by
  intro w e w' ran
  rcases perform_bind_error_iff.1 ran with failed | ⟨a, mid, -, failed⟩
  · exact first w e w' failed
  · exact second a mid e w' failed

/-- A step that depends on the world it is done in. -/
theorem get_bind {f : World → Action α} (h : ∀ w, Raises H (f w)) :
    Raises H (MonadState.get >>= f) := fun w => h w w

theorem set (w : World) : Raises H (set w : Action Unit) := by
  intro v e w' ran
  cases ran

theorem modify (f : World → World) : Raises H (modify f : Action Unit) := by
  intro v e w' ran
  cases ran

theorem ofExcept {x : Except Error α} (h : ∀ e, x = .error e → H e) : Raises H (ofExcept x) := by
  cases x with
  | ok a => exact pure a
  | error e => exact throw (h e rfl)

theorem ite {c : Prop} [Decidable c] {x y : Action α} (yes : c → Raises H x)
    (no : ¬ c → Raises H y) : Raises H (if c then x else y) := by
  by_cases h : c
  · rw [if_pos h]
    exact yes h
  · rw [if_neg h]
    exact no h

theorem forM {l : List β} {f : β → Action Unit} (each : ∀ b ∈ l, Raises H (f b)) :
    Raises H (l.forM f) := by
  intro w e w' ran
  obtain ⟨b, v, reached, failed⟩ := perform_forM_error_iff.1 ran
  exact each b reached.mem v e w' failed

end Raises

end FlowReport.Action
