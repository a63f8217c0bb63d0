import Mathlib

/-!
# Self-delimiting printers

A printer is self-delimiting for a set of stop characters when the printed
text can be cut off the front of any longer text that continues with a stop
character, and the printed value can be recovered from it.  Texts that are
assembled from self-delimiting pieces therefore determine the pieces.
-/

namespace AliveNext.Lib

universe u v

variable {α : Type u} {β : Type v}

def Stops (stop : β → Prop) : List β → Prop
  | [] => True
  | c :: _ => stop c

@[simp]
theorem stops_cons {stop : β → Prop} {c : β} {rest : List β} : Stops stop (c :: rest) ↔ stop c :=
  Iff.rfl

/-- The front of a text without stop characters is determined by where the
first stop character stands. -/
theorem append_inj_of_stops (stop : β → Prop) {front front' : List β}
    {rest rest' : List β} (clean : ∀ c ∈ front, ¬ stop c) (clean' : ∀ c ∈ front', ¬ stop c)
    (stops : Stops stop rest) (stops' : Stops stop rest') (same : front ++ rest = front' ++ rest') :
    front = front' ∧ rest = rest' := by
  induction front generalizing front' with
  | nil =>
    cases front' with
    | nil => exact ⟨rfl, same⟩
    | cons c tail =>
      subst same
      exact absurd stops (clean' c List.mem_cons_self)
  | cons c tail ih =>
    cases front' with
    | nil =>
      simp only [List.cons_append, List.nil_append] at same
      subst same
      exact absurd stops' (clean c List.mem_cons_self)
    | cons c' tail' =>
      simp only [List.cons_append, List.cons.injEq] at same
      obtain ⟨rfl, same⟩ := same
      obtain ⟨rfl, restSame⟩ :=
        ih (fun d member => clean d (List.mem_cons_of_mem c member))
          (fun d member => clean' d (List.mem_cons_of_mem c member))
          same
      exact ⟨rfl, restSame⟩

/-- The printed text and its value can be recovered from the front of a text
that continues with a stop character. -/
def SelfDelimiting (stop : β → Prop) (print : α → List β) : Prop :=
  ∀ x y rest rest', Stops stop rest → Stops stop rest' →
    print x ++ rest = print y ++ rest' → x = y ∧ rest = rest'

namespace SelfDelimiting

variable {stop : β → Prop} {print : α → List β}

theorem of_clean (injective : ∀ x y, print x = print y → x = y)
    (clean : ∀ x, ∀ c ∈ print x, ¬ stop c) : SelfDelimiting stop print := by
  intro x y rest rest' stops stops' same
  obtain ⟨printed, restSame⟩ :=
    append_inj_of_stops stop (clean x) (clean y) stops stops' same
  exact ⟨injective x y printed, restSame⟩

theorem injective (delimited : SelfDelimiting stop print) {x y : α}
    (same : print x = print y) : x = y :=
  (delimited x y [] [] trivial trivial (by simpa using same)).1

theorem cut (delimited : SelfDelimiting stop print) {x y : α} {c c' : β} {rest rest' : List β}
    (isStop : stop c) (isStop' : stop c') (same : print x ++ c :: rest = print y ++ c' :: rest') :
    x = y ∧ c = c' ∧ rest = rest' := by
  obtain ⟨rfl, restSame⟩ :=
    delimited x y (c :: rest) (c' :: rest') isStop isStop' same
  simp only [List.cons.injEq] at restSame
  exact ⟨rfl, restSame.1, restSame.2⟩

end SelfDelimiting

end AliveNext.Lib
