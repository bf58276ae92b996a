import Highlight.Proofs.R.LineComment
import Highlight.Proofs.Sql.LineComment

/-!
Line comments of R and SQL end with their lines. A lead byte of a double-byte code page that stands in front of a terminator makes a
character of both, and then they go on.
-/

namespace Highlight

variable {keywords : Keywords} {doc : Document} {i : Nat}

/--
It takes a double-byte code page for a character to take in a terminator.
-/
theorem R.RunsOver.exists_doubleByte (h : R.RunsOver keywords doc i) (hdoc : doc.WellFormed) (hlt : i < doc.size) :
    ∃ page, doc.encoding = .doubleByte page := by
  obtain ⟨c, hvisits, _, hwidth, hend, rfl⟩ := h
  obtain ⟨_, hbefore, hbytes⟩ := hdoc.lineEnd_spec (hdoc.lt_lineCount hlt)
  have hc := hvisits.comes.onText hdoc (Nat.zero_lt_of_lt hlt)
  obtain ⟨b, hb, hascii⟩ : ∃ b : UInt8, doc.text[c.pos + 1]? = some b ∧ b.toNat < 0x80 := by
    rw [hend]
    rcases hbytes _ (Nat.le_refl _) hbefore with hfeed | hreturn
    . exact ⟨_, hfeed, by decide⟩
    . exact ⟨_, hreturn, by decide⟩
  rw [hc.settled.width_eq, hc.decodeAt_eq, Document.decodeAt] at hwidth
  have hover (hsingle : ∀ page, doc.encoding ≠ .doubleByte page) : False := by
    have hle := doc.encoding.decodeAt_le_of_ascii_of_single hsingle (Nat.lt_succ_self c.pos) hb hascii
    omega
  cases hencoding : doc.encoding with
  | singleByte => exact absurd (fun page => by rw [hencoding]; simp) hover
  | utf8 => exact absurd (fun page => by rw [hencoding]; simp) hover
  | doubleByte page => exact ⟨page, rfl⟩

theorem Sql.RunsOver.exists_doubleByte (h : Sql.RunsOver keywords doc i) : ∃ page, doc.encoding = .doubleByte page := by
  obtain ⟨s, hvisits, _, hlead, _⟩ := h
  rw [Scan.atLead, hvisits.sameSource.encoding] at hlead
  cases hencoding : doc.encoding with
  | singleByte =>
    rw [hencoding] at hlead
    cases hlead
  | utf8 =>
    rw [hencoding] at hlead
    cases hlead
  | doubleByte page => exact ⟨page, rfl⟩

/--
In a text that is coloured from its start, the first byte of a line has the style of a line comment in two cases: a line comment opens
there, or one takes in the terminator in front of the line, which is not empty. The second case needs a double-byte code page.
-/
theorem Session.line_comments_end_with_line (session : Session) (text : Array UInt8) (encoding : Encoding) (options : Options)
    (line : Nat) :
    let doc := Document.fresh text encoding options
    let styled := session.colour doc 0 text.size
    let first := doc.lineStart line
    first < text.size →
      (session.lexer = R.lexer →
        (R.isComment (styled.styleAt first) = true
          ↔ R.OpensComment session.keywords doc first ∨ R.RunsOver session.keywords doc first ∧ first ≠ doc.lineEnd line)
        ∧ (R.RunsOver session.keywords doc first → ∃ page, encoding = .doubleByte page))
      ∧ (session.lexer = Sql.lexer →
        (Sql.isLineStyle (styled.styleAt first) = true
          ↔ Sql.OpensLine session.keywords doc first ∨ Sql.RunsOver session.keywords doc first ∧ first ≠ doc.lineEnd line)
        ∧ (Sql.RunsOver session.keywords doc first → ∃ page, encoding = .doubleByte page)) := by
  intro doc styled first hlt
  have hdoc : doc.WellFormed := Document.wellFormed_fresh text encoding options
  refine ⟨fun hsession => ⟨?_, ?_⟩, fun hsession => ⟨?_, ?_⟩⟩
  . exact R.isComment_lineStart_iff hsession hdoc hlt
  . exact fun hruns => hruns.exists_doubleByte hdoc hlt
  . exact Sql.isLineStyle_lineStart_iff hsession hdoc hlt
  . exact fun hruns => hruns.exists_doubleByte

/--
Two comments in UTF-8, each behind one that ends with its line.
-/
theorem Session.line_comments_end_with_line_utf8 :
    R.OpensComment #[] (Document.fresh "#é\n#x".toUTF8.data .utf8 .empty) 4
      ∧ Sql.OpensLine #[] (Document.fresh "--é\n#x".toUTF8.data .utf8 .empty) 5 := by
  have hline : (Document.fresh "#é\n#x".toUTF8.data .utf8 .empty).lineStart 1 = 4 := by decide +kernel
  have hline' : (Document.fresh "--é\n#x".toUTF8.data .utf8 .empty).lineStart 1 = 5 := by decide +kernel
  obtain ⟨hr, hrpage⟩ := (line_comments_end_with_line (.ofLexer R.lexer) "#é\n#x".toUTF8.data .utf8 .empty 1
    (by decide +kernel)).1 rfl
  obtain ⟨hsql, hsqlpage⟩ := (line_comments_end_with_line (.ofLexer Sql.lexer) "--é\n#x".toUTF8.data .utf8 .empty 1
    (by decide +kernel)).2 rfl
  rw [hline] at hr hrpage
  rw [hline'] at hsql hsqlpage
  constructor
  . refine (hr.mp (by decide +kernel)).resolve_right ?_
    rintro ⟨hruns, _⟩
    obtain ⟨page, hpage⟩ := hrpage hruns
    cases hpage
  . refine (hsql.mp (by decide +kernel)).resolve_right ?_
    rintro ⟨hruns, _⟩
    obtain ⟨page, hpage⟩ := hsqlpage hruns
    cases hpage

/--
Two comments that take in the line feed behind them, and go on over a line in which none opens.
-/
theorem Session.line_comments_go_on :
    let r := Document.fresh #[0x23, 0x81, 0x0A, 0x78] (.doubleByte .shiftJis) .empty
    let sql := Document.fresh #[0x2D, 0x2D, 0x81, 0x0A, 0x78] (.doubleByte .shiftJis) .empty
    (r.lineStart 1 = 3 ∧ R.isComment (((Session.ofLexer R.lexer).colour r 0 4).styleAt 3) = true ∧ ¬ R.OpensComment #[] r 3)
      ∧ sql.lineStart 1 = 4 ∧ Sql.isLineStyle (((Session.ofLexer Sql.lexer).colour sql 0 5).styleAt 4) = true
      ∧ ¬ Sql.OpensLine #[] sql 4 := by
  intro r sql
  refine ⟨⟨by decide +kernel, by decide +kernel, ?_⟩, by decide +kernel, by decide +kernel, ?_⟩
  . rintro ⟨c, ⟨hrun, _⟩, hpos, hstate, hsign⟩
    have hnone := hrun.of_holdsAlong (show holdsAlong (fun c => !((R.leave #[] c).pos == 3 && (R.leave #[] c).state == R.Style.default
      && (R.leave #[] c).sees '#')) _ _ 9 _ = true by decide +kernel)
    rw [hpos, hstate, hsign] at hnone
    cases hnone
  . rintro ⟨s, ⟨hrun, _⟩, hstate, hopens, hsegment⟩
    have hnone := Iterates.of_holdsAlong (show holdsAlong (fun s => !(!Sql.isLineStyle s.state
      && Sql.isLineStyle (Sql.stepFrom #[] sql 0 s).state && (Sql.stepFrom #[] sql 0 s).pen.segment == 4)) _ _ 9 _ = true by decide +kernel)
      hrun
    rw [hstate, hopens, hsegment] at hnone
    cases hnone

end Highlight
