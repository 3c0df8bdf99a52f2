import ModuleBridge.Source.Scan

/-!
# Successful runs

How a successful run of a composed operation is put together from successful runs of its parts, and
what a successful run of each small operation is.
-/

namespace ModuleBridge

variable {u : Unit} {text word : String} {found : Bool}

namespace Scan

variable {α β : Type} {c d e : Cursor}

theorem bind_eq_ok {op : Scan α} {next : α → Scan β} {b : β} :
    (op >>= next) c = .ok b e ↔ ∃ a d, op c = .ok a d ∧ next a d = .ok b e := by
  change EStateM.bind op next c = .ok b e ↔ _
  unfold EStateM.bind
  cases h : op c with
  | ok a d =>
    constructor
    · intro hnext
      exact ⟨a, d, rfl, hnext⟩
    · rintro ⟨a', d', heq, hnext⟩
      cases heq
      exact hnext
  | error fault d => simp

theorem pure_eq_ok {a b : α} : (pure a : Scan α) c = .ok b d ↔ b = a ∧ d = c := by
  change EStateM.Result.ok a c = .ok b d ↔ _
  simp [eq_comm]

theorem map_eq_ok {op : Scan α} {f : α → β} {b : β} :
    (op >>= fun a => pure (f a)) c = .ok b d ↔ ∃ a, op c = .ok a d ∧ b = f a := by
  rw [bind_eq_ok]
  constructor
  · rintro ⟨a, e, hop, hpure⟩
    obtain ⟨rfl, rfl⟩ := pure_eq_ok.mp hpure
    exact ⟨a, hop, rfl⟩
  · rintro ⟨a, hop, rfl⟩
    exact ⟨a, d, hop, rfl⟩

theorem get_eq_ok {a : Cursor} : (get : Scan Cursor) c = .ok a d ↔ a = c ∧ d = c := by
  change EStateM.Result.ok c c = .ok a d ↔ _
  simp [eq_comm]

theorem set_eq_ok {u : PUnit} : (set e : Scan PUnit) c = .ok u d ↔ d = e := by
  change EStateM.Result.ok ⟨⟩ e = .ok u d ↔ _
  simp [eq_comm]

theorem get_bind (next : Cursor → Scan α) : (get >>= next) c = next c c := rfl

theorem set_bind (next : PUnit → Scan α) : (set d >>= next) c = next ⟨⟩ d := rfl

theorem peek_eq_ok {f : Cursor → α} {a : α} : peek f c = .ok a d ↔ a = f c ∧ d = c := by
  change EStateM.Result.ok (f c) c = .ok a d ↔ _
  simp [eq_comm]

theorem failHere_ne_ok {message : Message} {args : List String} {a : α} :
    failHere message args c ≠ .ok a d := by
  intro h
  cases h

theorem accept_cases (h : accept text c = .ok found d) :
    (found = true ∧ c.startsWith text = true ∧ d = c.advance (bytesOf text).length) ∨
      (found = false ∧ c.startsWith text = false ∧ d = c) := by
  unfold accept at h
  cases hstarts : c.startsWith text with
  | true =>
    rw [hstarts, if_pos rfl] at h
    cases h
    exact .inl ⟨rfl, rfl, rfl⟩
  | false =>
    rw [hstarts, if_neg Bool.false_ne_true] at h
    cases h
    exact .inr ⟨rfl, rfl, rfl⟩

theorem acceptWord_cases (h : acceptWord word c = .ok found d) :
    (found = true ∧ c.startsWithWord word = true ∧ d = c.advance (bytesOf word).length) ∨
      (found = false ∧ c.startsWithWord word = false ∧ d = c) := by
  unfold acceptWord at h
  cases hstarts : c.startsWithWord word with
  | true =>
    rw [hstarts, if_pos rfl] at h
    cases h
    exact .inl ⟨rfl, rfl, rfl⟩
  | false =>
    rw [hstarts, if_neg Bool.false_ne_true] at h
    cases h
    exact .inr ⟨rfl, rfl, rfl⟩

theorem expect_eq_ok :
    expect text c = .ok u d ↔ c.startsWith text = true ∧ d = c.advance (bytesOf text).length := by
  unfold expect
  rw [bind_eq_ok]
  constructor
  · rintro ⟨found, e, haccept, hrest⟩
    rcases accept_cases haccept with ⟨rfl, hstarts, rfl⟩ | ⟨rfl, _, _⟩
    · rw [if_pos rfl, pure_eq_ok] at hrest
      exact ⟨hstarts, hrest.2⟩
    · exact absurd hrest failHere_ne_ok
  · rintro ⟨hstarts, rfl⟩
    exact ⟨true, _, by rw [accept, hstarts, if_pos rfl], by rw [if_pos rfl, pure_eq_ok]; simp⟩

theorem expectWord_eq_ok :
    expectWord word c = .ok u d ↔
      c.startsWithWord word = true ∧ d = c.advance (bytesOf word).length := by
  unfold expectWord
  rw [bind_eq_ok]
  constructor
  · rintro ⟨found, e, haccept, hrest⟩
    rcases acceptWord_cases haccept with ⟨rfl, hstarts, rfl⟩ | ⟨rfl, _, _⟩
    · rw [if_pos rfl, pure_eq_ok] at hrest
      exact ⟨hstarts, hrest.2⟩
    · exact absurd hrest failHere_ne_ok
  · rintro ⟨hstarts, rfl⟩
    exact ⟨true, _, by rw [acceptWord, hstarts, if_pos rfl], by rw [if_pos rfl, pure_eq_ok]; simp⟩

theorem space_eq_ok : space c = .ok u d ↔ ∃ crosses, trivia c = .ok crosses d := by
  rw [space, map_eq_ok]
  simp only [and_true]

/-- If `op` succeeds from `c`, its answer and the cursor it leaves have the property `P`. -/
def RunsTo (c : Cursor) (P : α → Cursor → Prop) (op : Scan α) : Prop :=
  ∀ ⦃a d⦄, op c = .ok a d → P a d

namespace RunsTo

variable {P : α → Cursor → Prop}

theorem pure {a : α} (h : P a c) : RunsTo c P (pure a) := by
  intro b d hrun
  obtain ⟨rfl, rfl⟩ := pure_eq_ok.mp hrun
  exact h

theorem bind {op : Scan β} {next : β → Scan α}
    (h : ∀ b d, op c = .ok b d → RunsTo d P (next b)) : RunsTo c P (op >>= next) := by
  intro a e hrun
  obtain ⟨b, d, hop, hnext⟩ := bind_eq_ok.mp hrun
  exact h b d hop hnext

theorem get {next : Cursor → Scan α} (h : RunsTo c P (next c)) : RunsTo c P (get >>= next) :=
  h

theorem peek {f : Cursor → β} {next : β → Scan α} (h : RunsTo c P (next (f c))) :
    RunsTo c P (peek f >>= next) :=
  h

theorem ite {p : Prop} [Decidable p] {op other : Scan α} (hop : p → RunsTo c P op)
    (hother : ¬p → RunsTo c P other) : RunsTo c P (if p then op else other) := by
  split
  · exact hop ‹p›
  · exact hother ‹¬p›

end RunsTo

end Scan

end ModuleBridge
