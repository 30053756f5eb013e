import Gapscript.Proofs.Rejection

/-! # Places counted in bytes

Positions count bytes, so what stands at a position of a text is a byte. A byte below 128 is a character by itself, and
all bytes of any other character are from 128 on. Looking at bytes therefore finds newlines, blanks, brackets and
operators where the characters are, and the line of a token can be told from the bytes before its position.
-/
namespace Gapscript

/-- The bytes of a text in UTF-8, each as the character that has its code. -/
def codes (text : String) : List Char := text.toByteArray.data.toList.map Char.ofUInt8

/-- The byte at a position. -/
def byteAt? (text : String) (pos : Nat) : Option Char := (codes text)[pos]?

/-- The byte right before a position. -/
def byteBefore? (text : String) (pos : Nat) : Option Char := if pos = 0 then none else byteAt? text (pos - 1)

/-- How many of the bytes before a position are newlines. -/
def newlinesBefore (text : String) (pos : Nat) : Nat := ((codes text).take pos).count '\n'

/-! ## The bytes of a character -/

def charCodes (c : Char) : List Char := (String.utf8EncodeChar c).map Char.ofUInt8

theorem charCodes_of_lt {c : Char} (hc : c.toNat < 128) : charCodes c = [c] := by
  have hsize : c.utf8Size = 1 := by
    rw [Char.utf8Size_eq_one_iff, UInt32.le_iff_toNat_le]
    exact Nat.le_of_lt_succ hc
  have hcode : Char.ofUInt8 c.val.toUInt8 = c := by
    refine Char.ext (UInt32.toNat_inj.mp ?_)
    change c.toNat % 256 = c.toNat
    omega
  rw [charCodes, String.utf8EncodeChar_eq_singleton hsize, List.map_singleton, hcode]

theorem le_of_mem_utf8EncodeChar {c : Char} (hc : 128 ≤ c.toNat) : ∀ b ∈ String.utf8EncodeChar c, 128 ≤ b.toNat := by
  have hbyte {n : Nat} (hn : 128 ≤ n) (hn' : n < 256) : 128 ≤ (UInt8.ofNat n).toNat := by
    rwa [UInt8.toNat_ofNat', Nat.mod_eq_of_lt hn']
  have htwo : ¬c.val.toNat ≤ 127 := Nat.not_le_of_gt hc
  simp only [String.utf8EncodeChar, if_neg htwo]
  split
  · simp only [List.forall_mem_cons]
    exact ⟨hbyte (by omega) (by omega),hbyte (by omega) (by omega),List.forall_mem_nil _⟩
  split
  · simp only [List.forall_mem_cons]
    exact ⟨hbyte (by omega) (by omega),hbyte (by omega) (by omega),hbyte (by omega) (by omega),List.forall_mem_nil _⟩
  · simp only [List.forall_mem_cons]
    exact ⟨hbyte (by omega) (by omega),hbyte (by omega) (by omega),hbyte (by omega) (by omega),
      hbyte (by omega) (by omega),List.forall_mem_nil _⟩

theorem le_of_mem_charCodes {c d : Char} (hc : 128 ≤ c.toNat) (hd : d ∈ charCodes c) : 128 ≤ d.toNat := by
  obtain ⟨b,hb,rfl⟩ := List.mem_map.mp hd
  exact le_of_mem_utf8EncodeChar hc b hb

theorem length_charCodes (c : Char) : (charCodes c).length = c.utf8Size := by
  rw [charCodes, List.length_map, String.length_utf8EncodeChar]

theorem charCodes_ne_nil (c : Char) : charCodes c ≠ [] := by
  have hsize := c.utf8Size_pos
  rw [← length_charCodes] at hsize
  exact List.ne_nil_of_length_pos hsize

theorem count_newline_charCodes (c : Char) : (charCodes c).count '\n' = [c].count '\n' := by
  by_cases hc : c.toNat < 128
  · rw [charCodes_of_lt hc]
  · have hle : 128 ≤ c.toNat := Nat.le_of_not_lt hc
    have hnone {l : List Char} (hl : ∀ d ∈ l, 128 ≤ d.toNat) : l.count '\n' = 0 := by
      refine List.count_eq_zero.mpr fun hmem => ?_
      have hlow := hl _ hmem
      revert hlow
      decide
    rw [hnone fun d => le_of_mem_charCodes hle, hnone (by simpa using hle)]

/-! ## The bytes of a text -/

theorem codes_eq (text : String) : codes text = text.toList.flatMap charCodes := by
  have hbytes : text.toByteArray = text.toList.utf8Encode := by
    rw [← String.toByteArray_ofList, String.ofList_toList]
  rw [codes, hbytes, List.utf8Encode, List.data_toByteArray, List.map_flatMap]
  rfl

theorem codes_append (front back : String) : codes (front ++ back) = codes front ++ codes back := by
  simp only [codes_eq, String.toList_append, List.flatMap_append]

theorem length_codes (text : String) : (codes text).length = text.utf8ByteSize := by
  rw [codes, List.length_map, Array.length_toList]
  rfl

theorem count_newline_codes (text : String) : (codes text).count '\n' = text.toList.count '\n' := by
  rw [codes_eq]
  induction text.toList with
  | nil => rfl
  | cons c cs ih =>
    rw [List.flatMap_cons, List.count_append, ih, count_newline_charCodes, ← List.count_append, List.singleton_append]

theorem newlinesBefore_append (front back : String) :
    newlinesBefore (front ++ back) front.utf8ByteSize = front.toList.count '\n' := by
  rw [newlinesBefore, codes_append, ← length_codes, List.take_left, count_newline_codes]

/-- The line that a front of the text leads to, told from the bytes before the position where it ends. -/
theorem lineAfter_eq {text : String} {front back : List Char} (h : text.toList = front ++ back) :
    Scan.lineAfter front = 1 + newlinesBefore text (Scan.bytes front) := by
  have htext : text = String.ofList front ++ String.ofList back := by
    rw [← String.ofList_append, ← h, String.ofList_toList]
  rw [htext, Scan.bytes, newlinesBefore_append, String.toList_ofList, Scan.lineAfter, Nat.add_comm]

/-! ## The bytes next to a position -/

/-- The same character, or two that are both beyond the first 128. -/
def Looks (c d : Char) : Prop := d = c ∨ 128 ≤ c.toNat ∧ 128 ≤ d.toNat

/-- Whether a character is one of some among the first 128 shows in how it looks. -/
theorem Looks.mem_iff {l : List Char} (hl : l.all (fun c => decide (c.toNat < 128)) = true) {c d : Char}
    (h : Looks c d) : c ∈ l ↔ d ∈ l := by
  have hlow {e : Char} (he : 128 ≤ e.toNat) : e ∉ l := by
    intro hmem
    have hlt := of_decide_eq_true (List.all_eq_true.mp hl e hmem)
    omega
  rcases h with rfl | ⟨hc,hd⟩
  · exact Iff.rfl
  · exact iff_of_false (hlow hc) (hlow hd)

theorem looks_of_mem_charCodes {c d : Char} (hd : d ∈ charCodes c) : Looks c d := by
  by_cases hc : c.toNat < 128
  · rw [charCodes_of_lt hc] at hd
    exact .inl (List.mem_singleton.mp hd)
  · have hle : 128 ≤ c.toNat := Nat.le_of_not_lt hc
    exact .inr ⟨hle,le_of_mem_charCodes hle hd⟩

/-- What can be told of a character from how it looks can be told of the byte in its place. -/
theorem exists_iff_of_looks {p : Char → Prop} (hp : ∀ {c d}, Looks c d → (p c ↔ p d)) {x y : Option Char}
    (h : Option.Rel Looks x y) : (∃ c, x = some c ∧ p c) ↔ ∃ d, y = some d ∧ p d := by
  cases h with
  | none => simp
  | some hlooks => simpa using hp hlooks

theorem byteAt?_append (front back : String) : byteAt? (front ++ back) front.utf8ByteSize = (codes back).head? := by
  rw [byteAt?, codes_append, ← length_codes, List.getElem?_append_right (Nat.le_refl _), Nat.sub_self,
    List.head?_eq_getElem?]

theorem byteBefore?_append (front back : String) :
    byteBefore? (front ++ back) front.utf8ByteSize = (codes front).getLast? := by
  rw [byteBefore?, byteAt?, codes_append, ← length_codes, List.getLast?_eq_getElem?]
  split
  · next hzero => rw [List.getElem?_eq_none (by omega)]
  · rw [List.getElem?_append_left (by omega)]

/-- After a front of the text there stands a byte that looks like the next character, or nothing. -/
theorem byteAt?_looks (front : String) (back : List Char) :
    Option.Rel Looks back.head? (byteAt? (front ++ String.ofList back) front.utf8ByteSize) := by
  rw [byteAt?_append, codes_eq, String.toList_ofList]
  cases back with
  | nil => exact .none
  | cons c cs =>
    obtain ⟨d,ds,hcodes⟩ := List.exists_cons_of_ne_nil (charCodes_ne_nil c)
    rw [List.flatMap_cons, hcodes]
    exact .some (looks_of_mem_charCodes (hcodes ▸ List.mem_cons_self))

theorem byteBefore?_looks (front : List Char) (back : String) :
    Option.Rel Looks front.getLast? (byteBefore? (String.ofList front ++ back) (Scan.bytes front)) := by
  rw [Scan.bytes, byteBefore?_append, codes_eq, String.toList_ofList]
  rcases List.eq_nil_or_concat front with rfl | ⟨cs,c,rfl⟩
  · exact .none
  · obtain ⟨d,hd⟩ := Option.ne_none_iff_exists'.mp (mt List.getLast?_eq_none_iff.mp (charCodes_ne_nil c))
    rw [List.concat_eq_append, List.flatMap_append, List.flatMap_singleton, List.getLast?_concat, List.getLast?_append,
      hd]
    exact .some (looks_of_mem_charCodes (List.mem_of_getLast? hd))

/-! ## Lines -/

namespace Scan

/-- The token begins after a front of the text and is on the line that this leads to, or on the next if it starts one. -/
def OnLine (cs : List Char) (t : Token) : Prop :=
  ∃ front, front <+: cs ∧ t.pos = bytes front ∧ t.line = lineAfter front + if t.kind = .bol then 1 else 0

/-- The tokens, latest first, are on the lines of the text, apart from the one that every text begins with. -/
def OnLines (cs : List Char) (tokens : List Token) : Prop :=
  ∃ first rest, tokens.reverse = first :: rest ∧ first.pos = 0 ∧ first.line = 1 ∧ ∀ t ∈ rest, OnLine cs t

theorem OnLines.cons {cs ds : List Char} {tokens : List Token} {t : Token} (h : OnLines cs tokens)
    (ht : OnLine (cs ++ ds) t) : OnLines (cs ++ ds) (t :: tokens) := by
  obtain ⟨first,rest,hrest,hpos,hline,hlines⟩ := h
  refine ⟨first,rest ++ [t],by rw [List.reverse_cons, hrest, List.cons_append],hpos,hline,?_⟩
  refine List.forall_mem_append.mpr ⟨?_,List.forall_mem_singleton.mpr ht⟩
  intro u hu
  obtain ⟨front,hfront,hu⟩ := hlines u hu
  exact ⟨front,hfront.trans (List.prefix_append cs ds),hu⟩

theorem Covers.onLines {tokens : List Token} {cs : List Char} (h : Covers tokens cs) : OnLines cs tokens := by
  induction h with
  | initial => exact ⟨_,[],rfl,rfl,rfl,List.forall_mem_nil _⟩
  | @newline _ cs space _ _ ih =>
    rw [List.append_assoc]
    refine ih.cons ⟨cs ++ space,?_,rfl,rfl⟩
    rw [← List.append_assoc]
    exact List.prefix_append (cs ++ space) ['\n']
  | @token _ cs space kind text _ _ hkind _ ih =>
    rw [List.append_assoc]
    refine ih.cons ⟨cs ++ space,?_,rfl,by rw [if_neg hkind, Nat.add_zero]⟩
    rw [← List.append_assoc]
    exact List.prefix_append (cs ++ space) text

end Scan

/-- Lines are right everywhere. The line of a token is one more than the newlines before its position, and a token that
starts a line also counts the newline it stands for, which the first one does not have; where a text fails, the line of
the failure counts the newlines before its position. -/
theorem scan_lines (text : String) :
    (∀ tokens, Token.scan text = .ok tokens → ∃ first rest, tokens = first :: rest ∧
      first.line = 1 + newlinesBefore text first.pos ∧
      ∀ t ∈ rest, t.line = 1 + newlinesBefore text t.pos + if t.kind = .bol then 1 else 0) ∧
    ∀ e, Token.scan text = .error e → e.line = 1 + newlinesBefore text e.pos := by
  constructor
  · intro tokens h
    obtain ⟨done,space,hcovers,_,htext⟩ := Scan.covers_of_scan h
    obtain ⟨first,rest,hrest,hpos,hline,hlines⟩ := hcovers.onLines
    rw [List.reverse_reverse] at hrest
    refine ⟨first,rest,hrest,by rw [hline, hpos]; rfl,?_⟩
    intro t ht
    obtain ⟨front,⟨back,rfl⟩,htpos,htline⟩ := hlines t ht
    rw [List.append_assoc] at htext
    rw [htline, htpos, lineAfter_eq htext]
  · intro e h
    obtain ⟨front,back,htext,_,hstuck⟩ := Scan.stuck_of_scan h
    rw [hstuck.line_eq, hstuck.pos_eq, lineAfter_eq htext]

/-- Tokens of a string with a newline and an escaped newline in it, an operator right after it, and one line more. -/
def stringLineTokens : List Token :=
  [⟨.bol, 0, 1, "", ""⟩, ⟨.string .single, 0, 1, "", "'a\n\\\nb'"⟩, ⟨.word .inop2, 7, 3, "", "+"⟩,
    ⟨.word .symbol, 8, 3, "", "c"⟩, ⟨.bol, 9, 4, "\n", ""⟩, ⟨.word .symbol, 11, 4, " ", "d"⟩]

theorem scan_lines_string :
    Token.scan "'a\n\\\nb'+c\n d" = .ok stringLineTokens ∧ 3 = 1 + newlinesBefore "'a\n\\\nb'+c\n d" 7 ∧
      4 = 1 + newlinesBefore "'a\n\\\nb'+c\n d" 9 + 1 ∧
    Token.scan "'a\n\\\nb'+c\n é" = .error (.unknownChar 'é' 11 4) ∧
      4 = 1 + newlinesBefore "'a\n\\\nb'+c\n é" 11 := by
  have hscan : Token.scan "'a\n\\\nb'+c\n d" = .ok stringLineTokens := rfl
  have herror : Token.scan "'a\n\\\nb'+c\n é" = .error (.unknownChar 'é' 11 4) := rfl
  obtain ⟨first,rest,htokens,_,hlines⟩ := (scan_lines _).1 _ hscan
  cases htokens
  have hoperator := hlines ⟨.word .inop2, 7, 3, "", "+"⟩ (by simp)
  have hnewline := hlines ⟨.bol, 9, 4, "\n", ""⟩ (by simp)
  exact ⟨hscan,hoperator,hnewline,herror,(scan_lines _).2 _ herror⟩

end Gapscript
