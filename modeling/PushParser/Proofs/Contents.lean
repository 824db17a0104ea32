import PushParser.Proofs.Renaming

/-!
# Contents do not matter

When names stay as they are, a map `h` of contents commutes with trials, and with replays when it
respects the algebras.

* **`trial_map`**: a trial on the image of a stack is the image of the trial;
* `tape?_trial`: the choices of a trial depend on the outline of the stack only;
* **`advance_map`**: taking a token on the image of a stack, whatever the trials place as blanks.
-/

namespace PushParser

variable {α β : Type}

/-! ## Outcomes -/

/-- Change the contents. -/
def Verdict.map (h : α → β) : Verdict α → Verdict β
  | .accepted stack tape => .accepted (stack.map (Frame.map h)) tape
  | .refused => .refused
  | .exhausted => .exhausted

/-- Change the contents. -/
def Commit.map (h : α → β) (c : Commit α) : Commit β :=
  ⟨c.stack.map (Frame.map h), c.root.map h⟩

section Outcomes

variable (h : α → β)

theorem Frame.relabel_id_eq : Frame.relabel id h = Frame.map h := funext (Frame.relabel_id h)

theorem Verdict.relabel_id (v : Verdict α) : v.relabel id h = v.map h := by
  cases v <;> simp [relabel, map, Frame.relabel_id_eq]

theorem Commit.relabel_id (c : Commit α) : c.relabel id h = c.map h := by
  simp [relabel, map, Frame.relabel_id_eq]

theorem Event.relabel_id (e : Event α) : e.relabel id h = e.map h := by
  cases e <;> rfl

@[simp] theorem Frame.erase_map (f : Frame α) : (f.map h).erase = f.erase := by
  simp [Frame.erase, Frame.map, Slot.map_map, Function.comp_def]

end Outcomes

/-! ## Trials -/

section Trials

variable (E : Engine) (h : α → β) (blank : α) (tag : Symbol)

/-- **A trial on the image of a stack is the image of the trial.** -/
theorem trial_map (stack : List (Frame α)) :
    trial E (h blank) tag (stack.map (Frame.map h)) = (trial E blank tag stack).map h := by
  have htrial := trial_relabel E.renames_id h blank tag stack
  rwa [Frame.relabel_id_eq, Verdict.relabel_id] at htrial

theorem tape?_trial (stack : List (Frame α)) :
    (trial E blank tag stack).tape? = (trial E () tag (stack.map Frame.erase)).tape? := by
  have htape := tape?_relabel (h := fun _ : α => ()) E.renames_id blank () tag stack
  rw [Frame.relabel_id_eq] at htape
  exact htape.symm

end Trials

/-! ## Replays -/

section Replays

variable {A : Algebra α} {B : Algebra β} {h : α → β}

theorem Frame.result_map (H : A.Hom B h) (f : Frame α) : (f.map h).result B = h (f.result A) := by
  rw [← Frame.relabel_id]
  exact Frame.result_relabel H.relabels f

theorem Frame.reduction_map (H : A.Hom B h) (f : Frame α) (depth : Nat) :
    (f.map h).reduction B depth = (f.reduction A depth).map h := by
  rw [← Frame.relabel_id, ← Event.relabel_id]
  exact Frame.reduction_relabel H.relabels f depth

/-- **Taking a token commutes with a map of algebras**, whatever the trials place as blanks. -/
theorem advance_map (E : Engine) (H : A.Hom B h) (t : Token) (a : α) (b : β)
    (stack : List (Frame α)) :
    advance E B b t (stack.map (Frame.map h)) =
      (advance E A a t stack).map fun x => (x.1.map h, x.2.map (Event.map h)) := by
  have hadvance := advance_relabel E.renames_id H.relabels t a b stack
  simp only [Frame.relabel_id_eq, Commit.relabel_id, funext (Event.relabel_id h)] at hadvance
  exact hadvance

end Replays

end PushParser
