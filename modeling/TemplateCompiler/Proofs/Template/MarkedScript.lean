import TemplateCompiler.Proofs.Blanks
import TemplateCompiler.Workspace

/-!
# Host code behind a marker

Host code is written behind one of four markers, with blanks between them or without.  What is
looked for is a run of bytes that markers are made of, among the first two bytes.  So code that
starts with such a byte blurs a marker of one byte: the run of both is no marker, and all of the
expression is run as code.  A marker of two bytes is found whatever follows it.

Main results:

- Theorem {lit}`Marker.eq_of_isPrefix`: an expression starts with one marker at most.
- Theorems {lit}`Marker.read_of_clear` and {lit}`Marker.read_of_blurredBy`: what is read of marked
  code.
- Theorem {lit}`Marker.build_marked`: what a node of marked code means.
-/

namespace TemplateCompiler

/-- The markers of host code. -/
inductive Marker where
  /-- The code is run. -/
  | run
  /-- The value is inserted, and escaped if the options say so. -/
  | insert
  /-- The value is inserted and escaped. -/
  | insertEscaped
  /-- The value is inserted as it is. -/
  | insertBare
deriving DecidableEq, Repr

namespace Marker

/-- How a marker is written. -/
def text : Marker → Bytes
  | .run => ascii "-"
  | .insert => ascii "="
  | .insertEscaped => ascii "&="
  | .insertBare => ascii "!="

/-- What a marker asks for. -/
def mode (escapeHtml : Bool) : Marker → ScriptMode
  | .run => .running
  | .insert => .inserting escapeHtml
  | .insertEscaped => .inserting true
  | .insertBare => .inserting false

/-- Whether code blurs a marker in front of it: the marker has one byte, and the code starts
with a byte that markers are made of. -/
def blurredBy (marker : Marker) (code : Bytes) : Bool :=
  marker.text.length == 1 && code.head?.any Script.isMarkerByte

variable {marker : Marker} {code : Bytes}

/-- The text of a marker has the mode of the marker. -/
theorem ofMarker?_text (escapeHtml : Bool) (marker : Marker) :
    ScriptMode.ofMarker? escapeHtml marker.text = some (marker.mode escapeHtml) := by
  cases marker <;> rfl

/-- An expression starts with one marker at most: no two start with the same byte. -/
theorem eq_of_isPrefix {first second : Marker} (h : first.text <+: second.text ++ code) :
    first = second := by
  have hhead : first.text.head? = second.text.head? := by
    rcases h with ⟨rest, hrest⟩
    have hsame := congrArg List.head? hrest
    cases first <;> cases second <;> exact hsame
  revert hhead
  cases first <;> cases second <;> decide

private theorem mem_of_isMarkerByte {c : UInt8} (h : Script.isMarkerByte c = true) :
    c ∈ ascii "-=!&" :=
  List.contains_iff_mem.1 h

private theorem isBlank_of_isMarkerByte {c : UInt8} (h : Script.isMarkerByte c = true) :
    isBlank c = false := by
  have hall : ((ascii "-=!&").all fun d => !isBlank d) = true := by decide
  simpa using List.all_eq_true.1 hall c (mem_of_isMarkerByte h)

/-- What blurs a marker, which is one of the two that are written as a single byte. -/
theorem exists_of_blurredBy (h : marker.blurredBy code = true) :
    (marker = .run ∨ marker = .insert)
      ∧ ∃ d rest, code = d :: rest ∧ Script.isMarkerByte d = true := by
  rw [blurredBy, Bool.and_eq_true, beq_iff_eq, Option.any_eq_true] at h
  rcases h with ⟨hlength, d, hd, hbyte⟩
  rcases List.head?_eq_some_iff.1 hd with ⟨rest, rfl⟩
  refine ⟨?_, d, rest, rfl, hbyte⟩
  revert hlength
  cases marker <;> decide

/-! ## Reading -/

/-- A marker that is not blurred is found. -/
theorem marker_append (h : marker.blurredBy code = false) :
    Script.marker (marker.text ++ code) = marker.text := by
  have hone : ∀ c, Script.isMarkerByte c = true → code.head?.any Script.isMarkerByte = false →
      Script.marker (c :: code) = [c] := by
    intro c hc hnext
    cases code with
    | nil => simp [Script.marker, hc]
    | cons d rest => simp [Script.marker, hc, show Script.isMarkerByte d = false from hnext]
  cases marker with
  | run => exact hone _ (by decide) h
  | insert => exact hone _ (by decide) h
  | insertEscaped => rfl
  | insertBare => rfl

/-- What a blurred marker is read as is no marker. -/
theorem ofMarker?_of_blurredBy (h : marker.blurredBy code = true) (escapeHtml : Bool) :
    ScriptMode.ofMarker? escapeHtml (Script.marker (marker.text ++ code)) = none := by
  rcases exists_of_blurredBy h with ⟨hmarker, d, rest, rfl, hbyte⟩
  have hfound : Script.marker (marker.text ++ d :: rest) = marker.text ++ [d] := by
    have hfirst : Script.isMarkerByte 0x2D = true ∧ Script.isMarkerByte 0x3D = true := by decide
    rcases hmarker with rfl | rfl
    · simp [Script.marker, text, ascii, hfirst.1, hbyte]
    · simp [Script.marker, text, ascii, hfirst.2, hbyte]
  have hunknown : ((ascii "-=!&").all fun second =>
      (ScriptMode.ofMarker? escapeHtml (marker.text ++ [second])).isNone) = true := by
    rcases hmarker with rfl | rfl <;> rfl
  rw [hfound]
  exact Option.isNone_iff_eq_none.1 (List.all_eq_true.1 hunknown d (mem_of_isMarkerByte hbyte))

/-- Code that blurs its marker starts with no blank. -/
theorem trim_of_blurredBy (h : marker.blurredBy code = true) :
    trim (marker.text ++ code) = marker.text ++ trim code := by
  rcases exists_of_blurredBy h with ⟨hmarker, d, rest, rfl, hbyte⟩
  have hhead : ∀ c, (d :: rest).head? = some c → isBlank c = false := by
    intro c hc
    rcases Option.some.inj hc with rfl
    exact isBlank_of_isMarkerByte hbyte
  rcases hmarker with rfl | rfl
  · exact trim_cons_of_head (by decide) hhead
  · exact trim_cons_of_head (by decide) hhead

/-- Behind a marker that is not blurred the code is read as the marker asks. -/
theorem read_of_clear (h : marker.blurredBy code = false) (escapeHtml : Bool) :
    Script.read escapeHtml (marker.text ++ code) = ⟨marker.mode escapeHtml, trim code⟩
      ∧ Script.warnings (marker.text ++ code) = [] := by
  rw [Script.read, Script.warnings, marker_append h, ofMarker?_text, ofMarker?_text,
    List.drop_left]
  exact ⟨rfl, rfl⟩

/-- Code that blurs its marker is run, with the marker as a part of it. -/
theorem read_of_blurredBy (h : marker.blurredBy code = true) (escapeHtml : Bool) :
    Script.read escapeHtml (marker.text ++ code) = ⟨.running, marker.text ++ trim code⟩
      ∧ Script.warnings (marker.text ++ code) = [.missingMarker (marker.text ++ code)] := by
  rw [Script.read, Script.warnings, ofMarker?_of_blurredBy h, ofMarker?_of_blurredBy h,
    trim_of_blurredBy h]
  exact ⟨rfl, rfl⟩

/-- A node that is made of code behind a marker.  There is no other marker that the expression
starts with.  If the marker is not blurred, nothing is warned of and the trimmed code is read as
the marker asks; otherwise there is a warning that no marker was found, and the code is run with
the marker in front of it. -/
theorem build_marked (marker : Marker) (code : Bytes) (workspace : Workspace)
    (position : Position) (parent : Option Nat) :
    ∃ log built node script,
      workspace.build .script (marker.text ++ code) position parent = ⟨log, .ok built⟩
        ∧ built.store.cell? workspace.store.size = some { node, parent }
        ∧ node.reading = { detail := .script script }
        ∧ (∀ other : Marker, other.text <+: marker.text ++ code → other = marker)
        ∧ if marker.blurredBy code then
            log = [.warning (.missingMarker (marker.text ++ code))]
              ∧ script = ⟨.running, marker.text ++ trim code⟩
          else
            log = []
              ∧ script = ⟨marker.mode workspace.session.options.escapeHtml, trim code⟩ := by
  rcases workspace.build_cell .script (marker.text ++ code) position parent
    with ⟨built, hbuilt, hcell⟩
  refine ⟨_, built, _, _, hbuilt, hcell, rfl, fun _ => eq_of_isPrefix, ?_⟩
  change if marker.blurredBy code then
      (Script.warnings (marker.text ++ code)).map Message.warning = _ ∧ Script.read _ _ = _
    else (Script.warnings (marker.text ++ code)).map Message.warning = _ ∧ Script.read _ _ = _
  split
  · next hblurred =>
    rcases read_of_blurredBy hblurred workspace.session.options.escapeHtml with ⟨hread, hwarnings⟩
    rw [hwarnings]
    exact ⟨rfl, hread⟩
  · next hclear =>
    rcases read_of_clear (Bool.eq_false_iff.2 hclear) workspace.session.options.escapeHtml
      with ⟨hread, hwarnings⟩
    rw [hwarnings]
    exact ⟨rfl, hread⟩

-- A negated value is inserted behind a blank, and behind a marker of two bytes.
example : Script.read true (ascii "= !x") = ⟨.inserting true, ascii "!x"⟩
    ∧ Script.read true (ascii "!=!x") = ⟨.inserting false, ascii "!x"⟩
    ∧ Script.read true (ascii "=!x") = ⟨.running, ascii "=!x"⟩ := by
  decide

end Marker

end TemplateCompiler
