import Mathlib.Tactic.SplitIfs
import TypedPseudocode.Json.Printer
import TypedPseudocode.Json.Reader

/-!
JSON texts are read as what was written.

Both passes of reading undo one part of writing: the characters of a value are
grouped into its tokens, whatever has been read before and comes after, and its
tokens are assembled into its draft, whatever encloses it.  This is shown here of the
values that are put together from strings, arrays and objects.
-/

namespace TypedPseudocode.Json

/-! ## Escapes -/

namespace Quoted

def IsPlain (c : Char) : Prop := c ≠ '"' ∧ c ≠ '\\' ∧ 0x20 ≤ c.toNat

theorem isPlain_hexDigit : ∀ n < 16, IsPlain (hexDigit n) := by
  unfold IsPlain
  decide

theorem codeUnit?_hexDigit : ∀ n < 0x20,
    codeUnit? '0' '0' (hexDigit (n / 16)) (hexDigit (n % 16)) = some n := by
  decide

/-- How a character may be written: as it is, after a backslash, or by its number. -/
inductive Escapes (c : Char) : List Char → Prop
  | plain (h : IsPlain c) : Escapes c [c]
  | simple {x : Char} (h : simpleEscape? x = some c) (hprinted : 0x20 ≤ x.toNat) (hu : x ≠ 'u') :
      Escapes c ['\\', x]
  | unit {x y : Char} (h : codeUnit? '0' '0' x y = some c.toNat) (hc : c.toNat < 0x20)
      (hx : IsPlain x) (hy : IsPlain y) : Escapes c ['\\', 'u', '0', '0', x, y]

theorem escapes_escapeChar (c : Char) : Escapes c (escapeChar c) := by
  unfold escapeChar
  split_ifs with hquote hslash hplain hb ht hn hf hr
  · subst hquote
    exact .simple rfl (by decide) (by decide)
  · subst hslash
    exact .simple rfl (by decide) (by decide)
  · exact .plain ⟨hquote, hslash, hplain⟩
  · subst hb
    exact .simple rfl (by decide) (by decide)
  · subst ht
    exact .simple rfl (by decide) (by decide)
  · subst hn
    exact .simple rfl (by decide) (by decide)
  · subst hf
    exact .simple rfl (by decide) (by decide)
  · subst hr
    exact .simple rfl (by decide) (by decide)
  · have hc : c.toNat < 0x20 := by omega
    exact .unit (codeUnit?_hexDigit c.toNat hc) hc (isPlain_hexDigit _ (by omega))
      (isPlain_hexDigit _ (by omega))

theorem unescapeFrom_escapes {c : Char} {raw : List Char} (h : Escapes c raw)
    (done rest : List Char) :
    unescapeFrom done .nothing (raw ++ rest) = unescapeFrom (c :: done) .nothing rest := by
  cases h with
  | plain h => simp [unescapeFrom, step, h.2.1]
  | simple h _ hu => simp [unescapeFrom, step, h, hu]
  | unit h hc =>
      have hleading : isLeading c.toNat = false := by
        simp only [isLeading, Bool.and_eq_false_iff, decide_eq_false_iff_not]
        omega
      have htrailing : isTrailing c.toNat = false := by
        simp only [isTrailing, Bool.and_eq_false_iff, decide_eq_false_iff_not]
        omega
      simp [unescapeFrom, step, stepDigits, h, hleading, htrailing]

theorem unescape_escape (text : List Char) : unescape (escape text) = some text := by
  have hfrom (done : List Char) :
      unescapeFrom done .nothing (escape text) = some (done.reverse ++ text) := by
    induction text generalizing done with
    | nil => simp [escape, unescapeFrom]
    | cons c text ih =>
        rw [escape, List.flatMap_cons, unescapeFrom_escapes (escapes_escapeChar c), ← escape]
        simpa using ih (c :: done)
  exact hfrom []

end Quoted

/-! ## Tokens -/

/-- The values that are put together from strings, arrays and objects. -/
inductive Textual : Json → Prop
  | str (text : String) : Textual (.str text)
  | arr {elements : List Json} (h : ∀ v ∈ elements, Textual v) : Textual (.arr elements)
  | obj {members : List (String × Json)} (h : ∀ m ∈ members, Textual m.2) :
      Textual (.obj members)

mutual

def tokens : Json → List Token
  | .str text => [.text (some text)]
  | .arr [] => [.openArray, .closeArray]
  | .arr (v :: vs) => .openArray :: (tokens v ++ elementTokens vs)
  | .obj [] => [.openObject, .closeObject]
  | .obj ((key, v) :: ms) =>
      .openObject :: .text (some key) :: .colon :: (tokens v ++ memberTokens ms)
  | v => [.scalar (some v)]

def elementTokens : List Json → List Token
  | [] => [.closeArray]
  | v :: vs => .comma :: (tokens v ++ elementTokens vs)

def memberTokens : List (String × Json) → List Token
  | [] => [.closeObject]
  | (key, v) :: ms => .comma :: .text (some key) :: .colon :: (tokens v ++ memberTokens ms)

end

namespace Scanner

theorem run_plain {c : Char} (h : Quoted.IsPlain c) (raw rest : List Char) (done : List Token) :
    run ⟨.quoted raw, done⟩ (c :: rest) = run ⟨.quoted (c :: raw), done⟩ rest := by
  simp [run, step, h.1, h.2.1, Nat.not_lt.mpr h.2.2]

theorem run_backslash {x : Char} (h : 0x20 ≤ x.toNat) (raw rest : List Char) (done : List Token) :
    run ⟨.quoted raw, done⟩ ('\\' :: x :: rest) = run ⟨.quoted (x :: '\\' :: raw), done⟩ rest := by
  simp [run, step, Nat.not_lt.mpr h]

theorem run_escapes {c : Char} {written : List Char} (h : Quoted.Escapes c written)
    (raw rest : List Char) (done : List Token) :
    run ⟨.quoted raw, done⟩ (written ++ rest) =
      run ⟨.quoted (written.reverse ++ raw), done⟩ rest := by
  cases h with
  | plain h => exact run_plain h raw rest done
  | simple _ hprinted => exact run_backslash hprinted raw rest done
  | unit _ _ hx hy =>
      have hzero : Quoted.IsPlain '0' := Quoted.isPlain_hexDigit 0 (by decide)
      exact (run_backslash (by decide) raw _ done).trans <| (run_plain hzero _ _ done).trans <|
        (run_plain hzero _ _ done).trans <| (run_plain hx _ _ done).trans (run_plain hy _ _ done)

theorem run_escape (text raw rest : List Char) (done : List Token) :
    run ⟨.quoted raw, done⟩ (Quoted.escape text ++ rest) =
      run ⟨.quoted ((Quoted.escape text).reverse ++ raw), done⟩ rest := by
  induction text generalizing raw with
  | nil => rfl
  | cons c text ih =>
      rw [Quoted.escape, List.flatMap_cons, ← Quoted.escape, List.append_assoc,
        run_escapes (Quoted.escapes_escapeChar c), ih, List.reverse_append, List.append_assoc]

theorem run_writeQuoted (text : String) (rest : List Char) (done : List Token) :
    run ⟨.nothing, done⟩ (writeQuoted text rest) =
      run ⟨.nothing, .text (some text) :: done⟩ rest := by
  have hopen : run ⟨.nothing, done⟩ (writeQuoted text rest) =
      run ⟨.quoted [], done⟩ (Quoted.escape text.toList ++ '"' :: rest) := rfl
  rw [hopen, run_escape]
  simp [run, step, quotedToken?, Quoted.unescape_escape]

theorem run_writeKey (key : String) (rest : List Char) (done : List Token) :
    run ⟨.nothing, done⟩ (writeQuoted key (':' :: rest)) =
      run ⟨.nothing, .colon :: .text (some key) :: done⟩ rest := by
  rw [run_writeQuoted]
  rfl

theorem run_writeElements {vs : List Json} (h : ∀ v ∈ vs, ∀ rest done,
      run ⟨.nothing, done⟩ (v.write rest) = run ⟨.nothing, v.tokens.reverse ++ done⟩ rest)
    (rest : List Char) (done : List Token) :
    run ⟨.nothing, done⟩ (writeElements vs rest) =
      run ⟨.nothing, (elementTokens vs).reverse ++ done⟩ rest := by
  induction vs generalizing done with
  | nil => rfl
  | cons v vs ih =>
      have hcomma : run ⟨.nothing, done⟩ (writeElements (v :: vs) rest) =
          run ⟨.nothing, .comma :: done⟩ (v.write (writeElements vs rest)) := rfl
      rw [hcomma, h v List.mem_cons_self, ih fun w hw => h w (List.mem_cons_of_mem v hw)]
      simp [elementTokens]

theorem run_writeMembers {ms : List (String × Json)} (h : ∀ m ∈ ms, ∀ rest done,
      run ⟨.nothing, done⟩ (m.2.write rest) = run ⟨.nothing, m.2.tokens.reverse ++ done⟩ rest)
    (rest : List Char) (done : List Token) :
    run ⟨.nothing, done⟩ (writeMembers ms rest) =
      run ⟨.nothing, (memberTokens ms).reverse ++ done⟩ rest := by
  induction ms generalizing done with
  | nil => rfl
  | cons m ms ih =>
      obtain ⟨key, v⟩ := m
      have hcomma : run ⟨.nothing, done⟩ (writeMembers ((key, v) :: ms) rest) =
          run ⟨.nothing, .comma :: done⟩
            (writeQuoted key (':' :: v.write (writeMembers ms rest))) := rfl
      rw [hcomma, run_writeKey, h (key, v) List.mem_cons_self,
        ih fun w hw => h w (List.mem_cons_of_mem (key, v) hw)]
      simp [memberTokens]

theorem run_write {v : Json} (h : Textual v) (rest : List Char) (done : List Token) :
    run ⟨.nothing, done⟩ (v.write rest) = run ⟨.nothing, v.tokens.reverse ++ done⟩ rest := by
  induction h generalizing rest done with
  | str text =>
      rw [write, run_writeQuoted]
      rfl
  | @arr elements h ih =>
      cases elements with
      | nil => rfl
      | cons v vs =>
          have hopen : run ⟨.nothing, done⟩ ((Json.arr (v :: vs)).write rest) =
              run ⟨.nothing, .openArray :: done⟩ (v.write (writeElements vs rest)) := rfl
          rw [hopen, ih v List.mem_cons_self,
            run_writeElements fun w hw => ih w (List.mem_cons_of_mem v hw)]
          simp [Json.tokens]
  | @obj members h ih =>
      cases members with
      | nil => rfl
      | cons m ms =>
          obtain ⟨key, v⟩ := m
          have hopen : run ⟨.nothing, done⟩ ((Json.obj ((key, v) :: ms)).write rest) =
              run ⟨.nothing, .openObject :: done⟩
                (writeQuoted key (':' :: v.write (writeMembers ms rest))) := rfl
          rw [hopen, run_writeKey, ih (key, v) List.mem_cons_self,
            run_writeMembers fun w hw => ih w (List.mem_cons_of_mem (key, v) hw)]
          simp [Json.tokens]

end Scanner

theorem tokens?_write {v : Json} (h : Textual v) : tokens? (v.write []) = some v.tokens := by
  have hrun := Scanner.run_write h [] []
  simp [tokens?, hrun, Scanner.run, Scanner.finish]

/-! ## Drafts -/

mutual

def draft : Json → Draft
  | .arr vs => .arr (draftElements vs)
  | .obj ms => .obj (draftMembers ms)
  | v => .scalar (some v)

def draftElements : List Json → List Draft
  | [] => []
  | v :: vs => v.draft :: draftElements vs

def draftMembers : List (String × Json) → List (Option String × Draft)
  | [] => []
  | (key, v) :: ms => (some key, v.draft) :: draftMembers ms

end

namespace Assembler

theorem run_elementTokens {vs : List Json} (h : ∀ v ∈ vs, ∀ stack rest,
      run (.value stack) (v.tokens ++ rest) = run (deliver v.draft stack) rest)
    (done : List Draft) (stack : List Frame) (rest : List Token) :
    run (.afterElement done stack) (elementTokens vs ++ rest) =
      run (deliver (.arr (done.reverse ++ draftElements vs)) stack) rest := by
  induction vs generalizing done with
  | nil => simp [elementTokens, draftElements, run, step]
  | cons v vs ih =>
      have hcomma : run (.afterElement done stack) (elementTokens (v :: vs) ++ rest) =
          run (.value (.element done :: stack)) (v.tokens ++ (elementTokens vs ++ rest)) := by
        simp [elementTokens, run, step]
      rw [hcomma, h v List.mem_cons_self, deliver,
        ih fun w hw => h w (List.mem_cons_of_mem v hw)]
      simp [draftElements]

theorem run_memberTokens {ms : List (String × Json)} (h : ∀ m ∈ ms, ∀ stack rest,
      run (.value stack) (m.2.tokens ++ rest) = run (deliver m.2.draft stack) rest)
    (done : List (Option String × Draft)) (stack : List Frame) (rest : List Token) :
    run (.afterMember done stack) (memberTokens ms ++ rest) =
      run (deliver (.obj (done.reverse ++ draftMembers ms)) stack) rest := by
  induction ms generalizing done with
  | nil => simp [memberTokens, draftMembers, run, step]
  | cons m ms ih =>
      obtain ⟨key, v⟩ := m
      have hcomma : run (.afterMember done stack) (memberTokens ((key, v) :: ms) ++ rest) =
          run (.value (.member done (some key) :: stack))
            (v.tokens ++ (memberTokens ms ++ rest)) := by
        simp [memberTokens, run, step]
      rw [hcomma, h (key, v) List.mem_cons_self, deliver,
        ih fun w hw => h w (List.mem_cons_of_mem (key, v) hw)]
      simp [draftMembers]

theorem run_firstElement (v : Json) (stack : List Frame) (rest : List Token) :
    run (.firstElement stack) (v.tokens ++ rest) =
      run (.value (.element [] :: stack)) (v.tokens ++ rest) := by
  cases v with
  | arr elements => cases elements <;> rfl
  | obj members => cases members <;> rfl
  | _ => rfl

theorem run_tokens {v : Json} (h : Textual v) (stack : List Frame) (rest : List Token) :
    run (.value stack) (v.tokens ++ rest) = run (deliver v.draft stack) rest := by
  induction h generalizing stack rest with
  | str text => rfl
  | @arr elements h ih =>
      cases elements with
      | nil => rfl
      | cons v vs =>
          have hopen : run (.value stack) ((Json.arr (v :: vs)).tokens ++ rest) =
              run (.firstElement stack) (v.tokens ++ (elementTokens vs ++ rest)) := by
            simp [tokens, run, step, beginValue]
          rw [hopen, run_firstElement, ih v List.mem_cons_self, deliver,
            run_elementTokens fun w hw => ih w (List.mem_cons_of_mem v hw)]
          rfl
  | @obj members h ih =>
      cases members with
      | nil => rfl
      | cons m ms =>
          obtain ⟨key, v⟩ := m
          have hopen : run (.value stack) ((Json.obj ((key, v) :: ms)).tokens ++ rest) =
              run (.value (.member [] (some key) :: stack))
                (v.tokens ++ (memberTokens ms ++ rest)) := by
            simp [tokens, run, step, beginValue]
          rw [hopen, ih (key, v) List.mem_cons_self, deliver,
            run_memberTokens fun w hw => ih w (List.mem_cons_of_mem (key, v) hw)]
          rfl

end Assembler

theorem Draft.ofText?_compact {v : Json} (h : Textual v) :
    Draft.ofText? v.compact = some v.draft := by
  have hrun := Assembler.run_tokens h [] []
  rw [List.append_nil] at hrun
  simp [Draft.ofText?, compact, tokens?_write h, hrun, Assembler.deliver, Assembler.run,
    Assembler.finish]

mutual

theorem value?_draft (v : Json) : v.draft.value? = some v := by
  cases v with
  | arr elements => simp [draft, Draft.value?, elementValues?_draftElements elements]
  | obj members => simp [draft, Draft.value?, memberValues?_draftMembers members]
  | _ => rfl

theorem elementValues?_draftElements (vs : List Json) :
    Draft.elementValues? (draftElements vs) = some vs := by
  cases vs with
  | nil => rfl
  | cons v vs =>
      simp [draftElements, Draft.elementValues?, value?_draft v, elementValues?_draftElements vs]

theorem memberValues?_draftMembers (ms : List (String × Json)) :
    Draft.memberValues? (draftMembers ms) = some ms := by
  cases ms with
  | nil => rfl
  | cons m ms =>
      obtain ⟨key, v⟩ := m
      simp [draftMembers, Draft.memberValues?, value?_draft v, memberValues?_draftMembers ms]

end

/-! ## Shapes and depth -/

theorem pruneEach_draftElements {shape : Shape} {vs : List Json}
    (h : ∀ v ∈ vs, v.draft.prune .kept shape = v.draft) :
    Draft.pruneEach .kept shape (draftElements vs) = draftElements vs := by
  induction vs with
  | nil => rfl
  | cons v vs ih =>
      rw [draftElements, Draft.pruneEach, h v List.mem_cons_self,
        ih fun w hw => h w (List.mem_cons_of_mem v hw)]

theorem pruneTable_draftMembers {shape : Shape} {ms : List (String × Json)}
    (h : ∀ m ∈ ms, m.2.draft.prune .kept shape = m.2.draft) :
    Draft.pruneTable .kept shape (draftMembers ms) = draftMembers ms := by
  induction ms with
  | nil => rfl
  | cons m ms ih =>
      rw [draftMembers, Draft.pruneTable, h m List.mem_cons_self,
        ih fun w hw => h w (List.mem_cons_of_mem m hw)]

theorem elementsNestWithin_draftElements {limit : Nat} {vs : List Json}
    (h : ∀ v ∈ vs, v.draft.nestsWithin limit) :
    Draft.elementsNestWithin limit (draftElements vs) := by
  induction vs with
  | nil => rfl
  | cons v vs ih =>
      rw [draftElements, Draft.elementsNestWithin, h v List.mem_cons_self,
        ih fun w hw => h w (List.mem_cons_of_mem v hw)]
      rfl

theorem membersNestWithin_draftMembers {limit : Nat} {ms : List (String × Json)}
    (h : ∀ m ∈ ms, m.2.draft.nestsWithin limit) :
    Draft.membersNestWithin limit (draftMembers ms) := by
  induction ms with
  | nil => rfl
  | cons m ms ih =>
      rw [draftMembers, Draft.membersNestWithin, h m List.mem_cons_self,
        ih fun w hw => h w (List.mem_cons_of_mem m hw)]
      rfl

theorem select?_compact {v : Json} (h : Textual v) {shape : Shape} {limit : Nat}
    (hshape : v.draft.prune .kept shape = v.draft) (hlimit : v.draft.nestsWithin limit) :
    select? shape limit v.compact = some v := by
  simp [select?, Draft.ofText?_compact h, hshape, hlimit, value?_draft]

end TypedPseudocode.Json
