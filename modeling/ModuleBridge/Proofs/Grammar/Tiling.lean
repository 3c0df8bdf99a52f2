import Mathlib
import ModuleBridge.Proofs.Grammar.Statements
import ModuleBridge.Proofs.Source.TriviaText

/-!
# Statements tile the text

Reading a module loses no code: the statements follow each other in the text, none is empty, and
all that lies before, between and after them is trivia. Main statement: `parseModule_tiling`.
-/

namespace ModuleBridge

open Cursor List Scan

/-- The ranges around the statements of `body`, from `start` to the end of the text. -/
def gapsAround (text : String) (start : Nat) : List Statement → List Range
  | [] => [⟨start, text.utf8ByteSize⟩]
  | s :: rest => ⟨start, s.range.pos⟩ :: gapsAround text s.range.stop rest

/-- Trivia is passed from one end of the range exactly to the other, and is all there is. -/
structure IsGap (text : String) (g : Range) : Prop where
  le : g.pos ≤ g.stop
  passed : ∃ crosses, trivia ((Cursor.ofText text).moveTo g.pos) =
    .ok crosses ((Cursor.ofText text).moveTo g.stop)
  trivial : TriviaText (g.slice text) ∨ g.stop = text.utf8ByteSize ∧ ClosingTrivia (g.slice text)

/-- From `start` to its end the text is made of the statements of `body` and gaps around them. -/
structure Tiling (text : String) (start : Nat) (body : List Statement) : Prop where
  covers : ∀ s ∈ body, start ≤ s.range.pos ∧ s.range.pos < s.range.stop ∧
    s.range.stop ≤ text.utf8ByteSize
  boundaries : ∀ s ∈ body, String.Pos.Raw.IsValid text ⟨s.range.pos⟩ ∧
    String.Pos.Raw.IsValid text ⟨s.range.stop⟩
  ordered : body.Pairwise fun s t => s.range.stop ≤ t.range.pos
  gaps : ∀ g ∈ gapsAround text start body, IsGap text g

theorem IsGap.of_space {text : String} {c q : Cursor} (hbound : c.IsBoundary)
    (hbytes : c.bytes = bytesOf text) (h : space c = .ok () q) : IsGap text (c.rangeTo q) := by
  obtain ⟨crosses, htrivia⟩ := space_eq_ok.mp h
  have honward := trivia_onward htrivia
  have hq : q.bytes = bytesOf text := honward.bytes_eq.trans hbytes
  refine ⟨honward.pos_le, ⟨crosses, ?_⟩, ?_⟩
  · rw [rangeTo, moveTo_pos hbytes, moveTo_pos hq]
    exact htrivia
  · rw [honward.slice_eq hbytes]
    obtain ⟨length, hreach, rfl⟩ := trivia_eq_ok.mp htrivia
    obtain ⟨gap, hgap, hkind⟩ := triviaReach_text hbound hreach
    rw [textUpTo_advance, hgap, textOf_bytesOf]
    rcases hkind with htrivial | ⟨hend, hclosing⟩
    · exact .inl htrivial
    · have hsize := c.length_bytes
      rw [hbytes, length_bytesOf] at hsize
      refine .inr ⟨?_, hclosing⟩
      rw [stop_rangeTo, pos_advance]
      omega

theorem Tiling.nil {text : String} {start : Nat} (hgap : IsGap text ⟨start, text.utf8ByteSize⟩) :
    Tiling text start [] := by
  refine ⟨by simp, by simp, .nil, ?_⟩
  intro g hg
  rw [mem_singleton.mp hg]
  exact hgap

theorem Tiling.cons {text : String} {start : Nat} {s : Statement} {rest : List Statement}
    (hgap : IsGap text ⟨start, s.range.pos⟩) (hlt : s.range.pos < s.range.stop)
    (hstop : s.range.stop ≤ text.utf8ByteSize)
    (hpos : String.Pos.Raw.IsValid text ⟨s.range.pos⟩)
    (hend : String.Pos.Raw.IsValid text ⟨s.range.stop⟩)
    (hrest : Tiling text s.range.stop rest) : Tiling text start (s :: rest) := by
  have hle := hgap.le
  refine ⟨?_, ?_, ?_, ?_⟩
  · intro t ht
    rcases mem_cons.mp ht with rfl | ht
    · exact ⟨hle, hlt, hstop⟩
    · have hcovers := hrest.covers t ht
      have : start ≤ s.range.pos := hle
      exact ⟨by omega, hcovers.2⟩
  · intro t ht
    rcases mem_cons.mp ht with rfl | ht
    · exact ⟨hpos, hend⟩
    · exact hrest.boundaries t ht
  · exact .cons (fun t ht => (hrest.covers t ht).1) hrest.ordered
  · intro g hg
    rcases mem_cons.mp hg with rfl | hg
    · exact hgap
    · exact hrest.gaps g hg

theorem Tiling.of_run {text : String} {c e : Cursor} {body : List Statement}
    (h : Scan.ModuleRun c body e) (hbound : c.IsBoundary) (hbytes : c.bytes = bytesOf text) :
    Tiling text c.pos body := by
  induction h with
  | @nil c q hspace hend =>
    have hgap := IsGap.of_space hbound hbytes hspace
    have hq : q.bytes = bytesOf text := (space_onward hspace).bytes_eq.trans hbytes
    have hsize := q.length_bytes
    rw [hq, length_bytesOf, hend, length_nil, Nat.add_zero] at hsize
    exact .nil (hsize ▸ hgap)
  | @cons c q d e s rest hspace hmore hread hrest ih =>
    have hgap := IsGap.of_space hbound hbytes hspace
    obtain ⟨hrange, hd, hlt⟩ := topLevelStatement_spec hmore (clear_of_space hspace) hread
    have hq := space_onward hspace
    have hqbytes : q.bytes = bytesOf text := hq.bytes_eq.trans hbytes
    have hdbytes : d.bytes = bytesOf text := hd.bytes_eq.trans hqbytes
    have hqbound := hq.boundary hbound
    have hdbound := hd.boundary hqbound
    have hsize := d.length_bytes
    rw [hdbytes, length_bytesOf] at hsize
    have hpos : s.range.pos = q.pos := by rw [hrange, pos_rangeTo]
    have hstop : s.range.stop = d.pos := by rw [hrange, stop_rangeTo]
    have htiling := ih hdbound hdbytes
    rw [← hstop] at htiling
    refine .cons ?_ (by omega) (by omega) ?_ ?_ htiling
    · rw [hpos]
      exact hgap
    · rw [hpos]
      exact hqbound.isValid hqbytes
    · rw [hstop]
      exact hdbound.isValid hdbytes

/-- Whatever text is read, its statements tile it from the end of its `#!` line on. -/
theorem parseModule_tiling {text : String} {m : Module} (h : parseModule text = .ok m) :
    Tiling text (shebangLength text) m.body := by
  obtain ⟨e, hrun⟩ := parseModule_eq_ok.mp h
  have hbytes : (Cursor.pastShebang text).bytes = bytesOf text := bytes_advance _ _
  have htiling := Tiling.of_run hrun (isBoundary_pastShebang text) hbytes
  rwa [pos_pastShebang] at htiling

/-- Three statements after a `#!` line, the last gap an open line comment. -/
theorem tiling_after_shebang :
    ∃ m, parseModule "#!x\n/* é */ let a = b\nf(a)\nimport 'm'; // end" = .ok m ∧
      m.body.map Statement.range = [⟨13, 22⟩, ⟨23, 27⟩, ⟨28, 39⟩] ∧
      Tiling "#!x\n/* é */ let a = b\nf(a)\nimport 'm'; // end" 3 m.body := by
  obtain ⟨m, hread, hranges⟩ :
      ∃ m, parseModule "#!x\n/* é */ let a = b\nf(a)\nimport 'm'; // end" = .ok m ∧
        m.body.map Statement.range = [⟨13, 22⟩, ⟨23, 27⟩, ⟨28, 39⟩] := by
    refine ⟨_, by cbv, ?_⟩
    rfl
  exact ⟨m, hread, hranges, parseModule_tiling hread⟩

end ModuleBridge
