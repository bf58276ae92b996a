import Highlight.Proofs.Tcl.Unseen
import Highlight.Proofs.WholeText

/-!
The walk over all of a text.
-/

namespace Highlight.Tcl

open Cursor LineIndex

variable {doc : Document} {keywords : Keywords} {s : Scan} {w : Walk} {i : Nat}

/--
The walk over all of a text comes by a walk.
-/
def Visits (keywords : Keywords) (doc : Document) : Walk → Prop :=
  Iterates (!·.stopped) (Walk.next (.read keywords doc.options)) (.ofScan (.ofSpan (doc.spanOf 0 doc.size) doc))

/--
The walk takes the character it stands on for an operator: no backslash stands in front of it that counts, and the step opens
an operator.
-/
structure Walk.TakesOperator (settings : Settings) (w : Walk) : Prop where
  inSpan : w.atEnd = false
  unescaped : w.scan.escaped = false
  operator : (w.next settings).scan.cursor.state = Style.operator

theorem Walk.scan_next (settings : Settings) (w : Walk) : (w.next settings).scan = .after (w.scan.step settings w.atEnd) := by
  unfold next
  obtain ⟨t, flow⟩ := w.scan.step settings w.atEnd
  cases flow with
  | forward => rfl
  | again => rfl
  | stop => rfl

theorem visits_repeatWhile (keywords : Keywords) (doc : Document) (pos bound : Nat) :
    Visits keywords doc (repeatWhile (fun w => !w.stopped && decide (w.scan.cursor.pos < pos))
      (Walk.next (.read keywords doc.options)) bound (.ofScan (.ofSpan (doc.spanOf 0 doc.size) doc))) := by
  apply Iterates.mono (iterates_repeatWhile _ _ bound _)
  intro w hmore
  exact (Bool.and_eq_true_iff.mp hmore).1

/--
The steps of a pass over all of a text come by a scan.
-/
def Comes (keywords : Keywords) (doc : Document) : Scan → Prop :=
  Iterates (pass True False loose keywords doc.options).more (pass True False loose keywords doc.options).step
    (.ofSpan (doc.spanOf 0 doc.size) doc)

section Whole

variable (hdoc : doc.WellFormed) (hsize : 0 < doc.size)
include hdoc hsize

theorem good_whole (keywords : Keywords) : (pass True False loose keywords doc.options).Good
    ((pass True False loose keywords doc.options).start doc 0 doc.size) :=
  good_pass keywords hdoc startsLine_zero hsize (.inr rfl) (fun _ => rfl) (fun _ => rfl)

theorem Comes.onText (h : Comes keywords doc s) : s.cursor.OnText doc :=
  (lawfulPass (fun _ => id) (fun _ => trivial) keywords doc.options).onText hdoc hsize (good_whole hdoc hsize keywords) h

/--
Which walks are come by: those of the scans that the steps come by, and some that change nothing any more.
-/
theorem Visits.comes (h : Visits keywords doc w) : (∃ s, Comes keywords doc s ∧ w = .ofScan s) ∨ w.atEnd = true := by
  have hlaws : (pass True False loose keywords doc.options).LawfulPass :=
    lawfulPass (fun _ => id) (fun _ => trivial) keywords doc.options
  have hgood := good_whole hdoc hsize keywords
  have hmore : (Scan.ofSpan (doc.spanOf 0 doc.size) doc).cursor.more = true := by
    obtain ⟨pen, _, hcursor⟩ := exists_cursor_ofSpan (doc.spanOf 0 doc.size) doc
    rw [hcursor]
    exact Cursor.more_start hdoc startsLine_zero hsize (.inr rfl)
  have hinvariant := h.invariant
    (fun w => (∃ s, Comes keywords doc s ∧ w = .ofScan s) ∨ ∃ base, w.scan.Spent base ∧ w.atEnd = true) (by
      rintro w _ (⟨s, hs, rfl⟩ | ⟨base, hspent, hend⟩)
      . cases hin : s.cursor.more with
        | true =>
          obtain ⟨halike, _⟩ := hlaws.alike_whole hdoc hsize hgood hs
          have hreach := (halike.1.cursor.more'_iff rfl).mp hin
          rw [Walk.next_ofScan (View.closed_same rfl) halike.1 hreach]
          exact .inl ⟨_, hs.tail hin, rfl⟩
        | false =>
          have hspent := spent_of_ends (fun _ => id) (fun _ => trivial) hgood hmore ⟨hs, hin⟩
          have hend : (Walk.ofScan s).atEnd = true := by
            show (!s.cursor.more) = true
            rw [hin]
            rfl
          exact .inr ⟨_, Walk.spent_next hspent hend _⟩
      . exact .inr ⟨base, Walk.spent_next hspent hend _⟩) (.inl ⟨_, .refl _, rfl⟩)
  rcases hinvariant with hcomes | ⟨_, _, hend⟩
  . exact .inl hcomes
  . exact .inr hend

/--
What a scan has painted stays.
-/
theorem Comes.styleAt_colour {session : Session} (hsession : session.lexer = lexer) (h : Comes session.keywords doc s) {x : Style}
    (hpainted : s.cursor.pen.Painted i x) : (session.colour doc 0 doc.size).styleAt i = x := by
  have hlaws : (pass True False loose session.keywords doc.options).LawfulPass :=
    lawfulPass (fun _ => id) (fun _ => trivial) session.keywords doc.options
  have hgood := good_whole hdoc hsize session.keywords
  have hdrives : (pass True False loose session.keywords doc.options).Drives session := drives_pass hsession doc.options
  obtain ⟨halike, hgoodS⟩ := hlaws.alike_whole hdoc hsize hgood h
  obtain ⟨t, hrun, hend⟩ := hlaws.ends hgoodS
  have hkept : (pass True False loose session.keywords doc.options).alike _ (fun _ pen pen' => pen' = pen ∧ pen.Painted i x) s s :=
    ⟨{ halike.1 with cursor := halike.1.cursor.of_rel ⟨rfl, hpainted⟩ }, halike.2⟩
  rw [hdrives.colour_eq hdoc hsize (.inr rfl), hlaws.colour_eq hdoc startsLine_zero hsize (.inr rfl) hgood ⟨h.trans hrun, hend⟩]
  exact hlaws.styleAt_finish hgoodS rfl rfl hkept ⟨hrun, hend⟩

end Whole

theorem Scan.comes_advance (hcomes : Comes keywords doc s) (h : s.cursor.OnText doc) (hin : s.cursor.pos < doc.size) :
    Comes keywords doc (s.advance (.read keywords doc.options)) :=
  hcomes.tail (h.more_iff.mpr (Nat.le_of_lt hin))

end Highlight.Tcl
