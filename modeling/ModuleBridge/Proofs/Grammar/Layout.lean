import ModuleBridge.Proofs.Grammar.Stretches

/-!
# Layout of syntax trees

What it means that a syntax tree tells where its parts stand: the ranges of the parts of a node
follow each other inside the node's own range, and names, strings and code are the text of theirs.
`Lays` is the judgement by which readings are shown to build such trees: it collects the ranges of
the parts read so far.
-/

namespace ModuleBridge

open List

variable {c d : Cursor}

/-- The ranges follow each other between two offsets, and none is empty. -/
def InOrder : Nat → List Range → Nat → Prop
  | lo, [], hi => lo ≤ hi
  | lo, r :: rest, hi => lo ≤ r.pos ∧ r.pos < r.stop ∧ InOrder r.stop rest hi

namespace InOrder

variable {lo mid hi : Nat} {rs ss : List Range}

theorem le (h : InOrder lo rs hi) : lo ≤ hi := by
  induction rs generalizing lo with
  | nil => exact h
  | cons r rest ih =>
    obtain ⟨hpos, hlt, hrest⟩ := h
    have hle := ih hrest
    omega

theorem mono_left (h : InOrder mid rs hi) (hle : lo ≤ mid) : InOrder lo rs hi := by
  cases rs with
  | nil => exact Nat.le_trans hle h
  | cons r rest => exact ⟨Nat.le_trans hle h.1, h.2⟩

theorem append (hr : InOrder lo rs mid) (hs : InOrder mid ss hi) : InOrder lo (rs ++ ss) hi := by
  induction rs generalizing lo with
  | nil => exact hs.mono_left hr
  | cons r rest ih =>
    obtain ⟨hpos, hlt, hrest⟩ := hr
    exact ⟨hpos, hlt, ih hrest⟩

theorem mono_right (h : InOrder lo rs mid) (hle : mid ≤ hi) : InOrder lo rs hi := by
  have hend : InOrder mid [] hi := hle
  have happend := h.append hend
  rwa [append_nil] at happend

theorem front (h : InOrder lo (rs ++ ss) hi) : InOrder lo rs hi := by
  induction rs generalizing lo with
  | nil => exact h.le
  | cons r rest ih =>
    obtain ⟨hpos, hlt, hrest⟩ := h
    exact ⟨hpos, hlt, ih hrest⟩

theorem ne {r s : Range} (h : InOrder lo (rs ++ [r, s]) hi) : r ≠ s := by
  induction rs generalizing lo with
  | nil =>
    obtain ⟨-, hlt, hle, -⟩ := h
    rintro rfl
    omega
  | cons _ rest ih => exact ih h.2.2

end InOrder

/-! ## Faithful trees -/

/-- The range holds the text `value` between two equal quotes. -/
def IsQuotation (text value : String) (range : Range) : Prop :=
  ∃ mark, (mark = "'" ∨ mark = "\"") ∧ range.slice text = mark ++ value ++ mark

def Name.Reads (text : String) (n : Name) : Prop :=
  n.range.slice text = n.text

def Quoted.Reads (text : String) (q : Quoted) : Prop :=
  IsQuotation text q.value q.range

def Expression.Reads (text : String) : Expression → Prop
  | .name n => n.Reads text
  | .string value range => IsQuotation text value range
  | .number _ _ => True
  | .verbatim code range => range.slice text = code

def Target.range : Target → Range
  | .name n => n.range
  | .pattern _ range => range

def Target.Reads (text : String) : Target → Prop
  | .name n => n.Reads text
  | .pattern names range =>
    InOrder range.pos (names.map Name.range) range.stop ∧ ∀ n ∈ names, n.Reads text

def Declarator.parts (d : Declarator) : List Range :=
  d.target.range :: (d.value.map Expression.range).toList

def Declarator.Reads (text : String) (d : Declarator) : Prop :=
  InOrder d.range.pos d.parts d.range.stop ∧ d.target.Reads text ∧ ∀ e ∈ d.value, e.Reads text

def VariableDeclaration.Reads (text : String) (d : VariableDeclaration) : Prop :=
  InOrder d.range.pos (d.declarators.map Declarator.range) d.range.stop ∧
    ∀ x ∈ d.declarators, x.Reads text

def FunctionDeclaration.parts (d : FunctionDeclaration) : List Range :=
  (d.name.map Name.range).toList ++ [d.parameters]

def FunctionDeclaration.Reads (text : String) (d : FunctionDeclaration) : Prop :=
  InOrder d.range.pos d.parts d.range.stop ∧ ∀ n ∈ d.name, n.Reads text

def ClassDeclaration.parts (d : ClassDeclaration) : List Range :=
  (d.name.map Name.range).toList ++ (d.superclass.map Expression.range).toList

def ClassDeclaration.Reads (text : String) (d : ClassDeclaration) : Prop :=
  InOrder d.range.pos d.parts d.range.stop ∧ (∀ n ∈ d.name, n.Reads text) ∧
    ∀ e ∈ d.superclass, e.Reads text

def Declaration.Reads (text : String) : Declaration → Prop
  | .variable d => d.Reads text
  | .function d => d.Reads text
  | .classOf d => d.Reads text

def Declaration.word : Declaration → String
  | .variable d => d.kind.keyword.text
  | .function d => if d.isAsync then "async" else "function"
  | .classOf _ => "class"

/-- The parts of an entry that may be renamed. A name that stands for both is one part. -/
def pairParts (first second : Name) : List Range :=
  if second = first then [first.range] else [first.range, second.range]

def ImportBinding.parts : ImportBinding → List Range
  | .default n => [n.range]
  | .namespace n => [n.range]
  | .named imported localName => pairParts imported localName

def ImportBinding.Reads (text : String) : ImportBinding → Prop
  | .default n => n.Reads text
  | .namespace n => n.Reads text
  | .named imported localName => imported.Reads text ∧ localName.Reads text

def ExportEntry.parts (e : ExportEntry) : List Range :=
  pairParts e.localName e.exported

def ExportEntry.Reads (text : String) (e : ExportEntry) : Prop :=
  e.localName.Reads text ∧ e.exported.Reads text

def DefaultExport.Reads (text : String) : DefaultExport → Prop
  | .expression e => e.Reads text
  | .function d => d.Reads text
  | .classOf d => d.Reads text

def DefaultExport.declaration? : DefaultExport → Option Declaration
  | .expression _ => none
  | .function d => some (.function d)
  | .classOf d => some (.classOf d)

namespace Statement

/-- The parts of a statement, in source order. Declarations and code are statements themselves. -/
def parts : Statement → List Range
  | importFrom bindings source _ => bindings.flatMap ImportBinding.parts ++ [source.range]
  | exportDefault value _ => [value.range]
  | exportDeclaration d _ => [d.range]
  | exportList entries source _ =>
    entries.flatMap ExportEntry.parts ++ (source.map Quoted.range).toList
  | exportNamespace exported source _ => [exported.range, source.range]
  | exportAll source _ => [source.range]
  | declaration _ => []
  | verbatim _ _ => []

def exported? : Statement → Option Declaration
  | exportDefault value _ => value.declaration?
  | exportDeclaration d _ => some d
  | _ => none

def PartsRead (text : String) : Statement → Prop
  | importFrom bindings source _ => (∀ b ∈ bindings, b.Reads text) ∧ source.Reads text
  | exportDefault value _ => value.Reads text
  | exportDeclaration d _ => d.Reads text
  | exportList entries source _ => (∀ e ∈ entries, e.Reads text) ∧ ∀ q ∈ source, q.Reads text
  | exportNamespace exported source _ => exported.Reads text ∧ source.Reads text
  | exportAll source _ => source.Reads text
  | declaration d => d.Reads text
  | verbatim code range => range.slice text = code

/-- A statement tells where its parts stand. A declaration that it exports starts with its own
keyword and ends where the statement ends. -/
structure Reads (text : String) (s : Statement) : Prop where
  inOrder : InOrder s.range.pos s.parts s.range.stop
  partsRead : s.PartsRead text
  exported : ∀ d ∈ s.exported?, d.range.stop = s.range.stop ∧
    ((Cursor.ofText text).moveTo d.range.pos).startsWithWord d.word = true

end Statement

/-! ## The judgement -/

/-- The cursor stands between two characters of `text`. -/
def Cursor.IsIn (text : String) (c : Cursor) : Prop :=
  c.bytes = bytesOf text ∧ c.IsBoundary

theorem Cursor.isIn_pastShebang (text : String) : (pastShebang text).IsIn text :=
  ⟨bytes_advance _ _, isBoundary_pastShebang text⟩

theorem Cursor.Onward.isIn {text : String} (h : c.Onward d) (hc : c.IsIn text) : d.IsIn text :=
  ⟨h.bytes_eq.trans hc.1, h.boundary hc.2⟩

namespace Scan

open Cursor

variable {α β : Type} {text : String} {front : List Range} {parts : α → List Range} {P : α → Prop}

/-- Where `front` has been laid out before, a run of `op` leaves the ranges `parts` laid out up to
its end, and its answer has the property `P`. -/
def Lays (text : String) (front : List Range) (parts : α → List Range) (P : α → Prop)
    (op : Scan α) : Prop :=
  ∀ ⦃lo c a d⦄, c.IsIn text → InOrder lo front c.pos → op c = .ok a d →
    d.IsIn text ∧ InOrder lo (parts a) d.pos ∧ P a

namespace Lays

theorem pure {a : α} (hparts : parts a = front) (ha : P a) : Lays text front parts P (pure a) := by
  intro lo c b d hc hfront hrun
  obtain ⟨rfl, rfl⟩ := pure_eq_ok.mp hrun
  exact ⟨hc, hparts ▸ hfront, ha⟩

theorem failHere (message : Message) (args : List String) :
    Lays text front parts P (failHere message args) := by
  intro lo c a d _ _ hrun
  exact absurd hrun failHere_ne_ok

theorem bind {op : Scan β} {next : β → Scan α} {r : β → List Range} {Q : β → Prop}
    (hop : Lays text front r Q op) (hnext : ∀ b, Q b → Lays text (r b) parts P (next b)) :
    Lays text front parts P (op >>= next) := by
  intro lo c a e hc hfront hrun
  obtain ⟨b, d, hfirst, hrest⟩ := bind_eq_ok.mp hrun
  obtain ⟨hd, hmore, hb⟩ := hop hc hfront hfirst
  exact hnext b hb hd hmore hrest

theorem after {op : Scan β} {next : β → Scan α} [hop : StaysInText op]
    (hnext : ∀ b, Lays text front parts P (next b)) : Lays text front parts P (op >>= next) := by
  intro lo c a e hc hfront hrun
  obtain ⟨b, d, hfirst, hrest⟩ := bind_eq_ok.mp hrun
  have hmove := hop.onward hfirst
  exact hnext b (hmove.isIn hc) (hfront.mono_right hmove.pos_le) hrest

theorem ite {p : Prop} [Decidable p] {op other : Scan α} (hop : Lays text front parts P op)
    (hother : Lays text front parts P other) :
    Lays text front parts P (if p then op else other) := by
  split
  · exact hop
  · exact hother

theorem forget {more : List Range} {op : Scan α} (hop : Lays text front parts P op) :
    Lays text (front ++ more) parts P op := by
  intro lo c a d hc hfront hrun
  exact hop hc hfront.front hrun

theorem afterSpace {op : Scan (Option α)} {parts : Option α → List Range} {P : Option α → Prop}
    (hop : Lays text front parts P op) (hnone : parts none = front) :
    Lays text front parts P (afterSpace op) := by
  intro lo c answer d hc hfront hrun
  obtain ⟨q, e, hspace, hread, rfl⟩ := afterSpace_eq_ok.mp hrun
  have hmove := space_onward hspace
  obtain ⟨he, hparts, hanswer⟩ := hop (hmove.isIn hc) (hfront.mono_right hmove.pos_le) hread
  cases answer with
  | some value => exact ⟨he, hparts, hanswer⟩
  | none => exact ⟨hc, hnone ▸ hfront, hanswer⟩

end Lays

/-- A run of `op` adds the ranges `parts` to whatever has been laid out before. -/
def Adds (text : String) (parts : α → List Range) (P : α → Prop) (op : Scan α) : Prop :=
  ∀ front, Lays text front (fun a => front ++ parts a) P op

theorem Adds.node {op : Scan α} {range : α → Range} (parts : α → List Range)
    (hop : Lays text [] parts P op)
    (hrange : ∀ ⦃c a d⦄, op c = .ok a d → range a = c.rangeTo d) (hadvances : Advances op) :
    Adds text (fun a => [range a])
      (fun a => InOrder (range a).pos (parts a) (range a).stop ∧ P a) op := by
  intro front lo c a d hc hfront hrun
  obtain ⟨hd, hparts, ha⟩ := hop hc (Nat.le_refl c.pos) hrun
  have hlt := (hadvances hrun).2
  dsimp only
  rw [hrange hrun]
  exact ⟨hd, hfront.append ⟨Nat.le_refl _, hlt, Nat.le_refl _⟩, hparts, ha⟩

/-! ## Tokens and expressions -/

theorem name_eq_ok {n : Name} :
    name c = .ok n d ↔ c.byte?.any isNameStart = true ∧
      d = c.advance (c.after.takeWhile isNamePart).length ∧ n = ⟨c.textUpTo d, c.rangeTo d⟩ := by
  unfold name
  split
  · rename_i hstart
    simp only [EStateM.Result.ok.injEq, hstart, true_and]
    constructor
    · rintro ⟨rfl, rfl⟩
      exact ⟨rfl, rfl⟩
    · rintro ⟨rfl, rfl⟩
      exact ⟨rfl, rfl⟩
  · rename_i hstart
    simp [hstart]

theorem name_advances : Advances name := by
  intro c n d hrun
  refine ⟨name_onward hrun, ?_⟩
  obtain ⟨hstart, rfl, -⟩ := name_eq_ok.mp hrun
  cases hc : c.after with
  | nil => simp [byte?, hc] at hstart
  | cons b rest =>
    have hpart : isNamePart b = true := by
      simp only [byte?, hc, head?_cons, Option.any_some] at hstart
      simp [isNamePart, hstart]
    rw [pos_advance, hc, takeWhile_cons_of_pos hpart]
    simp

theorem name_reads {n : Name} (hbytes : c.bytes = bytesOf text) (hrun : name c = .ok n d) :
    n.Reads text := by
  have honward := name_onward hrun
  obtain ⟨-, -, rfl⟩ := name_eq_ok.mp hrun
  exact honward.slice_eq hbytes

theorem name_adds : Adds text (fun n => [n.range]) (Name.Reads text) name := by
  intro front lo c n d hc hfront hrun
  obtain ⟨honward, hlt⟩ := name_advances hrun
  refine ⟨honward.isIn hc, ?_, name_reads hc.1 hrun⟩
  obtain ⟨-, -, rfl⟩ := name_eq_ok.mp hrun
  exact hfront.append ⟨Nat.le_refl _, hlt, Nat.le_refl _⟩

theorem exists_mark {b : UInt8} (hb : isQuote b = true) :
    ∃ mark, (mark = "'" ∨ mark = "\"") ∧ bytesOf mark = [b] := by
  simp only [isQuote, Bool.or_eq_true, beq_iff_eq] at hb
  rcases hb with rfl | rfl
  · exact ⟨"'", .inl rfl, by decide⟩
  · exact ⟨"\"", .inr rfl, by decide⟩

theorem quoted_reads {q : Quoted} (hc : c.IsIn text) (hrun : quoted c = .ok q d) :
    q.Reads text ∧ q.range = c.rangeTo d ∧ c.pos < d.pos := by
  have honward := quoted_onward hrun
  unfold quoted at hrun
  split at hrun
  · cases hrun
  rename_i quote rest hafter
  split at hrun
  · rename_i hquote
    split at hrun
    · rename_i length hreach
      cases hrun
      obtain ⟨n, rfl, hget⟩ := quotedReach_eq_closed hreach
      obtain ⟨hlt, hlast⟩ := List.getElem?_eq_some_iff.mp hget
      obtain ⟨mark, hmark, hbytes⟩ := exists_mark hquote
      -- The quotes are ASCII, so what stands between them is a text.
      obtain ⟨back, hback⟩ := hc.2.2
      obtain ⟨_, inner, _, _, hinner⟩ :=
        exists_tail (hback.symm.trans hafter) (isQuote_ascii hquote)
      have hcut : bytesOf inner = rest.take n ++ quote :: rest.drop (n + 1) := by
        rw [hinner, ← hlast, getElem_cons_drop, take_append_drop]
      obtain ⟨value, _, _, hvalue, _⟩ := exists_cut_before hcut (isQuote_ascii hquote)
      have htake : c.after.take (0 + n + 1 + 1) = bytesOf (mark ++ value ++ mark) := by
        rw [hafter, take_succ_cons, Nat.zero_add, take_add_one, hget, bytesOf_append,
          bytesOf_append, hbytes, hvalue]
        rfl
      refine ⟨⟨mark, hmark, ?_⟩, rfl, ?_⟩
      · rw [honward.slice_eq hc.1, textUpTo_advance, htake, textOf_bytesOf]
        rw [Nat.zero_add, Nat.add_sub_cancel, ← hvalue, textOf_bytesOf]
      · rw [pos_advance, hafter, length_cons]
        omega
    · cases hrun
  · cases hrun

theorem quoted_adds : Adds text (fun q => [q.range]) (Quoted.Reads text) quoted := by
  intro front lo c q d hc hfront hrun
  obtain ⟨hreads, hrange, hlt⟩ := quoted_reads hc hrun
  dsimp only
  rw [hrange]
  exact ⟨(quoted_onward hrun).isIn hc, hfront.append ⟨Nat.le_refl _, hlt, Nat.le_refl _⟩, hreads⟩

theorem coversTo_eq_some {op : Scan α} {stop : Nat} {a : α} :
    coversTo op c stop = some a ↔ ∃ d, op c = .ok a d ∧ d.pos = stop := by
  unfold coversTo
  cases op c <;> simp [and_comm]

/-- However an expression is told apart, it reads as its text. -/
theorem classifyExpression_reads {stop : Nat} (hc : c.IsIn text) (hle : c.pos ≤ stop)
    (hstop : stop ≤ text.utf8ByteSize) : (classifyExpression c stop).Reads text := by
  have hverbatim : (⟨c.pos, stop⟩ : Range).slice text = textOf (c.after.take (stop - c.pos)) := by
    rw [slice_eq_textOf hle hstop, ← hc.1]
    change textOf ((c.bytes.drop c.pos).take (stop - c.pos)) = _
    rw [drop_bytes]
  unfold classifyExpression
  dsimp only
  split
  · exact hverbatim
  · split
    · split
      · rename_i token hcovers
        obtain ⟨d, hquoted, rfl⟩ := coversTo_eq_some.mp hcovers
        obtain ⟨hreads, hrange, -⟩ := quoted_reads hc hquoted
        rw [Quoted.Reads, hrange] at hreads
        exact hreads
      · exact hverbatim
    · split
      · split
        · trivial
        · exact hverbatim
      · split
        · split
          · rename_i n hcovers
            obtain ⟨d, hname, -⟩ := coversTo_eq_some.mp hcovers
            exact name_reads hc.1 hname
          · exact hverbatim
        · exact hverbatim

/-- The range that a run of `stretch` answers with starts where the run does, and does not go beyond
its end. -/
def StaysWithin (stretch : Scan Range) : Prop :=
  ∀ ⦃c r d⦄, stretch c = .ok r d → r.pos = c.pos ∧ c.pos ≤ r.stop ∧ r.stop ≤ d.pos

theorem expression_staysWithin : StaysWithin expression := by
  intro c r d hrun
  obtain ⟨hstretch, rfl⟩ := run_of_stretchFrom hrun
  exact ⟨rfl, hstretch.onward.pos_le, Nat.le_refl _⟩

theorem heritageFrom_staysWithin {start last : Cursor} {depth : Nat} {r : Range}
    (hstart : start.pos ≤ last.pos) (hlast : last.pos ≤ c.pos)
    (hrun : heritageFrom start last depth c = .ok r d) :
    r.pos = start.pos ∧ start.pos ≤ r.stop ∧ r.stop ≤ d.pos := by
  fun_induction heritageFrom start last depth c with
  | case1 | case2 | case4 => cases hrun
  | case3 last depth c length crosses hreach q =>
    injection hrun with hr hd
    have hmove : c.pos ≤ q.pos := (triviaReach_onward hreach).2.pos_le
    rw [← hr, ← hd]
    exact ⟨rfl, hstart, Nat.le_trans hlast hmove⟩
  | case5 last depth c length crosses hreach q b rest hq _ e hlit ih =>
    have hmove : c.pos ≤ q.pos := (triviaReach_onward hreach).2.pos_le
    have htoken := (literal_onward hlit).pos_le
    exact ih (by omega) (Nat.le_refl _) hrun
  | case6 last depth c length crosses hreach q | case7 last depth c length crosses hreach q
  | case8 last depth c length crosses hreach q =>
    rename_i ih
    have hmove : c.pos ≤ q.pos := (triviaReach_onward hreach).2.pos_le
    have hstep : q.pos ≤ (q.advance q.stepLength).pos := by simp
    have hq : start.pos ≤ q.pos := by omega
    exact ih (Nat.le_trans hq hstep) (Nat.le_refl _) hrun

theorem heritage_staysWithin : StaysWithin heritage := by
  intro c r d hrun
  exact heritageFrom_staysWithin (Nat.le_refl _) (Nat.le_refl _) hrun

theorem classified_adds {stretch : Scan Range} (honward : MovesOnward stretch)
    (hwithin : StaysWithin stretch) :
    Adds text (fun e => [e.range]) (Expression.Reads text) (classified stretch) := by
  intro front lo c e d hc hfront hrun
  obtain ⟨r, hstretch, hempty, rfl⟩ := classified_eq_ok.mp hrun
  obtain ⟨hpos, hle, hstop⟩ := hwithin hstretch
  have hmove := honward hstretch
  have hd := hmove.isIn hc
  have hsize : d.pos ≤ text.utf8ByteSize := by
    rw [← length_bytesOf, ← hd.1, length_bytes]
    exact Nat.le_add_right _ _
  have hlt : c.pos < r.stop := by
    rw [Range.isEmpty, beq_eq_false_iff_ne] at hempty
    omega
  dsimp only
  rw [classifyExpression_range]
  refine ⟨hd, hfront.append ⟨Nat.le_refl _, hlt, hstop⟩, ?_⟩
  exact classifyExpression_reads hc hle (Nat.le_trans hstop hsize)

theorem value_adds : Adds text (fun e => [e.range]) (Expression.Reads text) value :=
  classified_adds expression_onward expression_staysWithin

end Scan

end ModuleBridge
