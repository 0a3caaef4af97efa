import TaintTrail.Config.Format
import TaintTrail.Proofs.Yaml.Decoder
import TaintTrail.Proofs.Yaml.Reader

/-!
# Configuration files are read back

A configuration whose texts are on one line is read from its file as it is, if it can be used, and
otherwise with the error that says why it cannot.
-/

namespace TaintTrail

open Yaml

/-- Whether a text has no character that ends a line. -/
def isOnOneLine (text : String) : Bool := text.toList.all (!isBreak ·)

namespace Source

/-- Whether the name of a source is on one line, and its positions fit into 32 bits. -/
def fits (s : Source) : Bool := isOnOneLine s.procedure && s.filledParams.all (· < Nat.pow 2 32)

/-- A source with a name on one line is written as a simple node. -/
theorem isSimple_toNode {s : Source} (h : s.fits) : s.toNode.isSimple := by
  rw [fits, Bool.and_eq_true] at h
  rw [toNode, Node.isSimple_record]
  simp only [List.forall_mem_cons, List.not_mem_nil, false_implies, implies_true, and_true]
  exact ⟨⟨by decide, Node.isSimple_text h.1⟩, ⟨by decide, Node.isSimple_bool _⟩, by decide,
    Node.isSimple_sequence_map.mpr fun n _ => Node.isSimple_nat n⟩

/-- A source that fits is decoded from the node that it is written as. -/
theorem ofNode?_toNode {s : Source} (h : s.fits) (anchors : Anchors) :
    ofNode? anchors s.toNode = some s := by
  simp only [fits, Bool.and_eq_true, List.all_eq_true, decide_eq_true_eq] at h
  have hparams : Node.items? (Node.natBelow? (Nat.pow 2 32)) anchors
      (.sequence (s.filledParams.map fun n => .plain (toString n))) = some s.filledParams :=
    Node.items?_sequence_map anchors fun n hn => Node.natBelow?_plain anchors (h.2 n hn)
  rw [ofNode?, toNode, Node.fields?_record anchors (by simp [memberNames]) (by simp)]
  simp only [Node.field, List.lookup_cons, String.reduceBEq, Option.bind_eq_bind, Option.bind_some,
    Node.text?_text, Node.bool?_plain, hparams]

end Source

namespace Config

/-- Whether the texts of a configuration are each on one line, and its numbers fit into 32 and 64
bits. -/
def fits (c : Config) : Bool :=
  c.entryPoints.all isOnOneLine && c.sources.all Source.fits && c.mergeLabels.all isOnOneLine
    && c.limit < Nat.pow 2 64

/-- A configuration with texts on one line is written as a simple node. -/
theorem isSimple_toNode {c : Config} (h : c.fits) : c.toNode.isSimple := by
  simp only [fits, Bool.and_eq_true, List.all_eq_true] at h
  obtain ⟨⟨⟨hentryPoints, hsources⟩, hmergeLabels⟩, -⟩ := h
  rw [toNode, Node.isSimple_record]
  simp only [List.forall_mem_cons, List.not_mem_nil, false_implies, implies_true, and_true]
  refine ⟨⟨by decide, ?_⟩, ⟨by decide, ?_⟩, ⟨by decide, ?_⟩, ⟨by decide, Node.isSimple_bool _⟩,
    ⟨by decide, Node.isSimple_bool _⟩, by decide, Node.isSimple_nat _⟩
  · exact Node.isSimple_sequence_map.mpr fun text ht => Node.isSimple_text (hentryPoints text ht)
  · exact Node.isSimple_sequence_map.mpr fun s hs => Source.isSimple_toNode (hsources s hs)
  · exact Node.isSimple_sequence_map.mpr fun text ht => Node.isSimple_text (hmergeLabels text ht)

/-- A configuration that fits is decoded from the node that it is written as. -/
theorem ofNode?_toNode {c : Config} (h : c.fits) (anchors : Anchors) :
    ofNode? anchors c.toNode = some c := by
  simp only [fits, Bool.and_eq_true, List.all_eq_true, decide_eq_true_eq] at h
  have htexts : ∀ texts : List String,
      Node.items? Node.text? anchors (.sequence (texts.map .text)) = some texts := fun texts =>
    Node.items?_sequence_map anchors fun text _ => Node.text?_text anchors text
  have hsources : Node.items? Source.ofNode? anchors (.sequence (c.sources.map Source.toNode)) =
      some c.sources :=
    Node.items?_sequence_map anchors fun s hs => Source.ofNode?_toNode (h.1.1.2 s hs) anchors
  have hlimit : Node.natBelow? (Nat.pow 2 64) anchors (.plain (toString c.limit)) = some c.limit :=
    Node.natBelow?_plain anchors h.2
  rw [ofNode?, toNode, Node.fields?_record anchors (by simp [memberNames]) (by simp)]
  simp only [Node.field, List.lookup_cons, String.reduceBEq, Option.bind_eq_bind, Option.bind_some,
    htexts, hsources, Node.bool?_plain, hlimit]

/-- The node of a file. -/
def toDocument (c : Config) : Node := .record [("version", .plain "1"), ("taint", c.toNode)]

/-- The document of a configuration with texts on one line is simple. -/
theorem isSimple_toDocument {c : Config} (h : c.fits) : c.toDocument.isSimple := by
  rw [toDocument, Node.isSimple_record]
  simp only [List.forall_mem_cons, List.not_mem_nil, false_implies, implies_true, and_true]
  exact ⟨⟨by decide, by decide⟩, by decide, isSimple_toNode h⟩

/-- A configuration that fits is decoded from its document, with the version that it was written in.
-/
theorem ofDocument?_toDocument {c : Config} (h : c.fits) :
    ofDocument? c.toDocument = some (some 1, c) := by
  have hversion : ∀ anchors, Node.optional? (Node.natBelow? (Nat.pow 2 32)) anchors (.plain "1") =
      some (some 1) := fun _ => rfl
  have hfields : ∀ anchors, c.toDocument.fields? ["version", "taint"] anchors =
      some [("version", .plain "1"), ("taint", c.toNode)] := fun anchors =>
    Node.fields?_record anchors (by simp) (by simp)
  simp only [ofDocument?, hfields, Node.field, List.lookup_cons, String.reduceBEq,
    Option.bind_eq_bind, Option.bind_some, hversion, ofNode?_toNode h,
    Node.isRepetitive_eq_false (isSimple_toDocument h), Bool.false_eq_true, if_false]

/-- A configuration with texts on one line is read from its file as it is if it can be used, and
otherwise with the error that says why not. -/
theorem written_isChecked (c : Config) (h : c.fits) :
    (c.validate = .ok () → read c.write = .ok c) ∧
      ∀ e, c.validate = .error e → read c.write = .error e := by
  have hdocument : (Yaml.read? c.write).bind ofDocument? = some (some 1, c) := by
    have hread : Yaml.read? c.write = some c.toDocument := Yaml.read?_write (isSimple_toDocument h)
    rw [hread, Option.bind_some, ofDocument?_toDocument h]
  refine ⟨fun hvalid => ?_, fun e hinvalid => ?_⟩
  · simp [read, hdocument, hvalid]
  · simp [read, hdocument, hinvalid]

/-- A configuration with texts that would be taken for something else if they were written plainly:
nothing, numbers, truth values, comments, keys, items and quotes. -/
def withQuotes : Config where
  entryPoints := ["main", "", "- a", "key: value", "a #b", " 'x' ", "\"y\"", "007", "---", "é"]
  sources := [.filling "null" [0, 4294967295], .returning "true"]
  mergeLabels := ["", "~", "[]", "1e3", "&a", "%b", "x:"]
  throughExternals := false
  limit := 10000000

/-- The configuration with quotes is read back, and without entry points it is refused. -/
theorem written_isChecked_withQuotes :
    (withQuotes.fits ∧ withQuotes.validate = .ok () ∧ read withQuotes.write = .ok withQuotes) ∧
      let c := { withQuotes with entryPoints := [] }
      c.fits ∧ c.validate = .error .noEntryPoint ∧ read c.write = .error .noEntryPoint := by
  have hfits : withQuotes.fits := by decide
  have hvalid : withQuotes.validate = .ok () := by decide
  have hfits' : fits { withQuotes with entryPoints := [] } := by decide
  have hinvalid : validate { withQuotes with entryPoints := [] } = .error .noEntryPoint := by decide
  exact ⟨⟨hfits, hvalid, (written_isChecked _ hfits).1 hvalid⟩, hfits', hinvalid,
    (written_isChecked _ hfits').2 _ hinvalid⟩

end Config

end TaintTrail
