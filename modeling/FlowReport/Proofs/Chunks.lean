import FlowReport.Proofs.Blocks

/-!
# The chunks of a module's text

Which lines a chunk takes, and what a module holds after its chunks are put in. A function
definition runs from a line that starts one, through the first line behind it that ends with an
opening brace, to the first line after that with nothing but a closing brace.
-/

namespace FlowReport.Assembly

/-- A list is cut at the first item that passes the test. -/
theorem cutWhere?_eq_some_iff {α : Type} {p : α → Bool} {l before after : List α} {a : α} :
    cutWhere? p l = some (before, a, after) ↔
      l = before ++ a :: after ∧ p a = true ∧ ∀ b ∈ before, p b = false := by
  induction l generalizing before with
  | nil => simp [cutWhere?]
  | cons c rest ih =>
    cases hc : p c with
    | true =>
      simp only [cutWhere?, hc, if_true, Option.some.injEq, Prod.mk.injEq]
      constructor
      · rintro ⟨rfl, rfl, rfl⟩
        exact ⟨rfl, hc, by simp⟩
      · rintro ⟨same, -, none⟩
        cases before with
        | nil => cases same; exact ⟨rfl, rfl, rfl⟩
        | cons b before =>
          cases same
          rw [none c List.mem_cons_self] at hc
          cases hc
    | false =>
      simp only [cutWhere?, hc, Bool.false_eq_true, if_false, Option.map_eq_some_iff]
      constructor
      · rintro ⟨⟨b, x, y⟩, found, same⟩
        cases same
        obtain ⟨rfl, ha, none⟩ := ih.1 found
        exact ⟨rfl, ha, List.forall_mem_cons.2 ⟨hc, none⟩⟩
      · rintro ⟨same, ha, none⟩
        cases before with
        | nil => cases same; rw [ha] at hc; cases hc
        | cons b before =>
          cases same
          exact ⟨_, ih.2 ⟨rfl, ha, fun b hb => none b (List.mem_cons_of_mem _ hb)⟩, rfl⟩

/-- A list is not cut if no item passes the test. -/
theorem cutWhere?_eq_none_iff {α : Type} {p : α → Bool} {l : List α} :
    cutWhere? p l = none ↔ ∀ a ∈ l, p a = false := by
  induction l with
  | nil => simp [cutWhere?]
  | cons a l ih =>
    rw [cutWhere?, List.forall_mem_cons]
    cases here : p a with
    | true => simp
    | false => simp [ih]

namespace Chunk

/-- The lines that a function definition is made of. -/
structure Framed (header body : List Text) (closing : Text) : Prop where
  starts : ∃ line, header.head? = some line ∧ (Text.dropPrefix? "define " line.trim).isSome
  header : ∃ before last, header = before ++ [last] ∧ endsHeader last = true ∧
    ∀ line ∈ before, endsHeader line = false
  body : ∀ line ∈ body, closesBody line = false
  closing : closesBody closing = true

/-- A chunk that is a definition has the lines of one. -/
theorem framed_of_next {line : Text} {rest header body after : List Text} {closing : Text}
    (h : next line rest = (define header body closing, after)) : Framed header body closing := by
  unfold next at h
  extract_lets s at h
  split at h
  · cases h
  split at h
  · rename_i starts
    split at h
    · cases h
    · rename_i before last behind found
      split at h
      · cases h
      · rename_i found'
        cases h
        obtain ⟨same, ends, none⟩ := cutWhere?_eq_some_iff.1 found
        obtain ⟨-, closes, open'⟩ := cutWhere?_eq_some_iff.1 found'
        refine ⟨⟨line, ?_, starts⟩, ⟨before, last, rfl, ends, none⟩, open', closes⟩
        cases before <;> cases same <;> rfl
  split at h
  · cases h
  split at h
  · cases h
  split at h
  · cases h
  split at h
  · cases h
  · cases h

/-- The lines of a definition are one chunk, wherever its first line is met. -/
theorem next_of_framed {line : Text} {header body : List Text} {closing : Text}
    (framed : Framed (line :: header) body closing) (after : List Text) :
    next line (header ++ body ++ [closing] ++ after) =
      (define (line :: header) body closing, after) := by
  obtain ⟨⟨first, hfirst, starts⟩, ⟨before, last, same, ends, none⟩, open', closes⟩ := framed
  rw [List.head?_cons, Option.some.injEq] at hfirst
  subst hfirst
  have head : cutWhere? endsHeader (line :: (header ++ body ++ [closing] ++ after)) =
      some (before, last, body ++ [closing] ++ after) := by
    refine cutWhere?_eq_some_iff.2 ⟨?_, ends, none⟩
    rw [show line :: (header ++ body ++ [closing] ++ after) =
      (line :: header) ++ body ++ [closing] ++ after by simp, same]
    simp
  have tail : cutWhere? closesBody (body ++ [closing] ++ after) = some (body, closing, after) :=
    cutWhere?_eq_some_iff.2 ⟨by simp, closes, open'⟩
  obtain ⟨r, hr⟩ := Option.isSome_iff_exists.1 starts
  have text := Text.append_of_dropPrefix? hr
  have said : ¬ (line.trim = [] ∨ line.trim.head? = some ';') := by
    rw [← text]
    simp
  unfold next
  simp only [said, if_false, starts, if_true, head, tail]
  rw [← same]

theorem ofLines_nil : ofLines [] = [] := by rw [ofLines]

theorem ofLines_cons (line : Text) (rest : List Text) :
    ofLines (line :: rest) = (next line rest).1 :: ofLines (next line rest).2 := by rw [ofLines]

/-- Nothing is lost: the chunks hold the lines of the text. -/
theorem flatMap_lines_ofLines (ls : List Text) : (ofLines ls).flatMap lines = ls := by
  fun_induction ofLines ls with
  | case1 => rfl
  | case2 line rest ih => rw [List.flatMap_cons, ih, lines_next]

theorem framed_of_mem {ls header body : List Text} {closing : Text}
    (h : define header body closing ∈ ofLines ls) : Framed header body closing := by
  fun_induction ofLines ls with
  | case1 => cases h
  | case2 line rest ih =>
    rcases List.mem_cons.1 h with h | h
    · exact framed_of_next (Prod.ext h.symm rfl)
    · exact ih h

/-- The lines of the definitions among some chunks. -/
def definitions : List Chunk → List (List Text × List Text × Text)
  | [] => []
  | define header body closing :: rest => (header, body, closing) :: definitions rest
  | _ :: rest => definitions rest

theorem mem_definitions {chunks : List Chunk} {d : List Text × List Text × Text}
    (h : d ∈ definitions chunks) : define d.1 d.2.1 d.2.2 ∈ chunks := by
  induction chunks with
  | nil => cases h
  | cons chunk rest ih =>
    cases chunk with
    | define header body closing =>
      rcases List.mem_cons.1 h with rfl | h
      · exact List.mem_cons_self
      · exact List.mem_cons_of_mem _ (ih h)
    | _ => exact List.mem_cons_of_mem _ (ih h)

/-- The definitions lie in the text in its order. -/
theorem tiling_definitions (chunks : List Chunk) (pos : Nat) :
    ∃ places, places.map (·.2) = (definitions chunks).map (fun d => d.1 ++ d.2.1 ++ [d.2.2]) ∧
      Tiling (fun _ => True) pos places (chunks.flatMap lines) := by
  induction chunks generalizing pos with
  | nil => exact ⟨[], rfl, .nil fun _ _ => trivial⟩
  | cons chunk rest ih =>
    obtain ⟨places, same, tiling⟩ := ih (pos + chunk.lines.length)
    rw [List.flatMap_cons]
    cases chunk with
    | define header body closing =>
      refine ⟨(pos, header ++ body ++ [closing]) :: places, by simp [definitions, same], ?_⟩
      exact .cons_front (by simp) tiling
    | _ => exact ⟨places, same, tiling.skip_append fun _ _ => trivial⟩

end Chunk

namespace Module

@[simp] theorem funcs_addNode (m : Module) (key content : Text) :
    (m.addNode key content).funcs = m.funcs := by
  unfold addNode
  repeat' split
  all_goals rfl

/-- What becomes of a module when a function definition is put into it. -/
theorem add_define {m m' : Module} {header body : List Text} {closing : Text}
    (h : m.add (.define header body closing) = .ok m') :
    ∃ f, Function.ofLines header body closing = .ok f ∧ { m with funcs := m.funcs ++ [f] } = m' := by
  cases read : Function.ofLines header body closing with
  | error e => simp [add, read, Except.map] at h
  | ok f => exact ⟨f, rfl, by simpa [add, read, Except.map] using h⟩

/-- A module with more chunks has the functions of the definitions among them behind its own. -/
theorem funcs_of_foldlM {chunks : List Chunk} {m m' : Module}
    (h : chunks.foldlM add m = .ok m') :
    ∃ fs, m'.funcs = m.funcs ++ fs ∧ List.Forall₂
      (fun d f => Function.ofLines d.1 d.2.1 d.2.2 = .ok f) (Chunk.definitions chunks) fs := by
  induction chunks generalizing m with
  | nil =>
    cases h
    exact ⟨[], by simp, .nil⟩
  | cons chunk rest ih =>
    rw [List.foldlM_cons] at h
    obtain ⟨mid, added, h⟩ := bind_eq_ok.1 h
    obtain ⟨fs, same, read⟩ := ih h
    cases chunk with
    | define header body closing =>
      obtain ⟨f, hf, rfl⟩ := add_define added
      exact ⟨f :: fs, by simp [same], .cons hf read⟩
    | openHeader => cases added
    | openBody => cases added
    | node key content =>
      refine ⟨fs, ?_, read⟩
      cases added
      rw [same, funcs_addNode]
    | _ =>
      cases added
      exact ⟨fs, same, read⟩

end Module

end FlowReport.Assembly
