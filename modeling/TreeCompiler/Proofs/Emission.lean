import TreeCompiler.Session
import TreeCompiler.Proofs.Yields

/-!
From generated lines to the bytes of the output.

An emission without error has generated the whole unit and has written all of its lines; an
output without limit takes any unit, so there the outcome is that of generation.
-/

namespace TreeCompiler

/-- The bytes of some lines, behind those that are written already. -/
def appendLines (written : ByteArray) (ls : List Line) : ByteArray :=
  ls.foldl (fun bytes l => bytes ++ l.bytes) written

/-- The bytes of a unit. -/
def textBytes (unit : List Line) : ByteArray := appendLines .empty unit

/-- The lines that a session generates for a program, also if that stops early. -/
def Session.unit (s : Session) (p : Program) : List Line :=
  lines (p.lower s.arena { labels := s.labels, bank := s.bank }).code

namespace Sink

lemma written_of_write {sink sink' : Sink} {bytes : ByteArray}
    (h : sink.write bytes = (sink', true)) : sink'.written = sink.written ++ bytes := by
  rw [write] at h
  split at h
  · rw [← (Prod.mk.inj h).1]
  · split at h
    · rw [← (Prod.mk.inj h).1]
    · exact nomatch (Prod.mk.inj h).2

/-- If no line is refused, all of them are written. -/
lemma written_of_writeLines {code : List Emitted} : ∀ {sink sink' : Sink},
    sink.writeLines code = (sink', none) →
    sink'.written = appendLines sink.written (lines code) := by
  induction code with
  | nil =>
    intro sink sink' h
    rw [← (Prod.mk.inj h).1]
    rfl
  | cons l rest ih =>
    intro sink sink' h
    rw [writeLines] at h
    split at h
    · next next hwrite =>
      rw [ih h, written_of_write hwrite]
      rfl
    · cases (Prod.mk.inj h).2

/-- An output without limit refuses nothing. -/
lemma writeLines_unlimited (code : List Emitted) (written : ByteArray) :
    writeLines ⟨written, none⟩ code = (⟨appendLines written (lines code), none⟩, none) := by
  induction code generalizing written with
  | nil => rfl
  | cons l rest ih => exact ih (written ++ l.line.bytes)

end Sink

namespace Session

variable {s : Session} {p : Program}

/-- An emission without error. -/
lemma emit_eq_ok {room : Option ℕ} {out : Emission} (h : s.emit room p = .ok out)
    (hout : out.error = none) :
    ∃ g', (p.lower s.arena).Yields { labels := s.labels, bank := s.bank } (s.unit p) g' () ∧
      out = ⟨{ s with labels := g'.labels, bank := g'.bank }, textBytes (s.unit p), none⟩ := by
  rw [emit] at h
  split at h
  · obtain rfl := Except.ok.inj h
    exact nomatch hout
  · next sink hwrite =>
    split at h
    · next hresult =>
      obtain rfl := Except.ok.inj h
      refine ⟨_, Gen.yields_of_result hresult, ?_⟩
      rw [Sink.written_of_writeLines hwrite]
      rfl
    · obtain rfl := Except.ok.inj h
      exact nomatch hout
    · exact nomatch h

/-- To an output without limit a unit that is generated is emitted. -/
lemma emit_of_yields {g' : GenState} {text : List Line}
    (h : (p.lower s.arena).Yields { labels := s.labels, bank := s.bank } text g' ()) :
    s.emit none p =
      .ok ⟨{ s with labels := g'.labels, bank := g'.bank }, textBytes text, none⟩ := by
  obtain ⟨code, hcode, rfl⟩ := h
  rw [emit]
  simp only [hcode, Sink.writeLines_unlimited]
  rfl

/-- If generation stops, emission ends with its error. -/
lemma emit_of_stop {code : List Emitted} {g' : GenState} {e : LoweringError}
    (h : p.lower s.arena { labels := s.labels, bank := s.bank } = ⟨code, g', .error (.error e)⟩) :
    s.emit none p = .ok ⟨{ s with labels := g'.labels, bank := g'.bank },
      textBytes (lines code), some (.lowering e)⟩ := by
  rw [emit]
  simp only [h, Sink.writeLines_unlimited]
  rfl

end Session

end TreeCompiler
