import Gapscript.Proofs.Meaning
import Gapscript.Proofs.Scanning

/-! # Programs line after line

A text that can be read by itself is finished by a newline as it is by its end, so what follows on the next line is read
as at the start of a text. The statements of both are then the statements of the whole.
-/
namespace Gapscript.Scan

/-- After a text that may end, a newline leads to where every text begins. -/
theorem step_newline {s : State} {us : List Token} (h : s.finish = .ok us) :
    ∃ s', s.step '\n' = .ok s' ∧ Echoes (us.map Token.lexeme).reverse State.initial s' := by
  obtain ⟨pos,line,tokens,pending⟩ := s
  cases pending with
  | gap | symbol | operator | point =>
    cases h
    refine ⟨_,rfl,?_,.gap⟩
    rw [List.map_reverse, List.reverse_reverse]
    rfl
  | string => cases h

/-- Two texts with a newline between them have the tokens of both. -/
theorem scan_append_newline {a b : String} {us vs : List Token} (ha : Token.scan a = .ok us)
    (hb : Token.scan b = .ok vs) : ∃ ws, Token.scan (a ++ "\n" ++ b) = .ok ws ∧
      ws.map Token.lexeme = us.map Token.lexeme ++ vs.map Token.lexeme := by
  obtain ⟨s,hs,hus⟩ := scan_eq_ok_iff.mp ha
  obtain ⟨t,ht,hvs⟩ := scan_eq_ok_iff.mp hb
  obtain ⟨s',hstep,hechoes⟩ := step_newline hus
  -- The second text is read from the state after the newline as it was from the start.
  have hagree := hechoes.run b.toList
  rw [ht] at hagree
  obtain ⟨t',hrun,hechoes'⟩ := hagree.exists_of_ok
  obtain ⟨ws,hws,hlexemes⟩ := hechoes'.finish hvs
  rw [List.reverse_reverse] at hlexemes
  refine ⟨ws,scan_eq_ok_iff.mpr ⟨t',?_,hws⟩,hlexemes⟩
  have htext : (a ++ "\n" ++ b).toList = a.toList ++ '\n' :: b.toList := by simp
  rw [htext, run_after hs]
  simp only [State.run, hstep, hrun]

end Gapscript.Scan

namespace Gapscript.Parse
open Grammar

theorem Denotes.append {n : Nat} {u v : List Lexeme} {ts ts' : List Term} (h : Denotes n .top u (.list ts))
    (h' : Denotes n .top v (.list ts')) : Denotes n .top (u ++ v) (.list (ts ++ ts')) := by
  generalize ha : Phrase.top = a at h
  generalize hm : Meaning.list ts = m at h
  induction h generalizing ts with
  | topNil =>
    cases hm
    exact h'
  | topCons head _ _ ih =>
    cases hm
    rw [List.append_assoc, List.append_assoc]
    exact head.topCons (ih h' rfl rfl)
  | _ => cases ha

end Gapscript.Parse

namespace Gapscript

/-- Two programs with a newline between them are the program of the statements of both. -/
theorem compile_append_newline {a b : String} {ss ts : List Term} (ha : compile a = .ok (.block .top ss))
    (hb : compile b = .ok (.block .top ts)) : compile (a ++ "\n" ++ b) = .ok (.block .top (ss ++ ts)) := by
  obtain ⟨us,_,hus,hss,⟨⟩⟩ := compile_eq_ok_iff.mp ha
  obtain ⟨vs,_,hvs,hts,⟨⟩⟩ := compile_eq_ok_iff.mp hb
  obtain ⟨ws,hws,hlexemes⟩ := Scan.scan_append_newline hus hvs
  refine compile_eq_ok_iff.mpr ⟨ws,ss ++ ts,hws,?_,rfl⟩
  rw [hlexemes]
  exact hss.append hts

/-- The point at the end of the first line stays an operator, and neither the digit nor the call after it goes on with
that line. -/
theorem compile_append_newline_point :
    compile "a = 1." = .ok (.block .top [.assign [⟨.symbol, "a"⟩] (.apply (.ref ⟨.postop, "."⟩) [.symbol "1"])]) ∧
    compile "5 (b)" = .ok (.block .top [.apply (.symbol "5") [.symbol "b"]]) ∧
    compile ("a = 1." ++ "\n" ++ "5 (b)") = .ok (.block .top
      [.assign [⟨.symbol, "a"⟩] (.apply (.ref ⟨.postop, "."⟩) [.symbol "1"]), .apply (.symbol "5") [.symbol "b"]]) := by
  have ha : compile "a = 1." = .ok (.block .top
      [.assign [⟨.symbol, "a"⟩] (.apply (.ref ⟨.postop, "."⟩) [.symbol "1"])]) := rfl
  have hb : compile "5 (b)" = .ok (.block .top [.apply (.symbol "5") [.symbol "b"]]) := rfl
  have hboth := compile_append_newline ha hb
  exact ⟨ha,hb,hboth⟩

end Gapscript
