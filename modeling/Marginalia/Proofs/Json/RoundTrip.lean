import Marginalia.Json.Printer
import Marginalia.Json.Reader
import Marginalia.Proofs.Text.Decimal

set_option autoImplicit false

/-!
# Written JSON is read back

Each reader undoes what is written of its part of the grammar and hands on what follows.
What follows a value in a document can never be taken for more of it: after a number
comes a comma or a line end, and a string and a list have ends of their own.
-/

namespace Marginalia.Json

open Marginalia.Text

/-! ## Strings -/

/-- What is read of the written form of a character. -/
def elementOf (c : Char) : Element :=
  match c with
  | '\x08' | '\x0c' | '\n' | '\r' | '\t' => .char c
  | c => if c.toNat < 0x20 then .unit c.toNat else .char c

theorem hexUnit?_of_lt {n : Nat} (h : n < 0x20) :
    hexUnit? '0' '0' (hexDigit (n / 16)) (hexDigit (n % 16)) = some n := by
  have hall : ∀ n < 0x20,
      hexUnit? '0' '0' (hexDigit (n / 16)) (hexDigit (n % 16)) = some n := by decide
  exact hall n h

theorem readElements_quote (s : List Char) : readElements ('"' :: s) = some ([], s) := rfl

theorem readElements_unit (a b c d : Char) (s : List Char) :
    readElements ('\\' :: 'u' :: a :: b :: c :: d :: s) = (do
      let n ← hexUnit? a b c d
      let (elements, rest) ← readElements s
      some (.unit n :: elements, rest)) := rfl

/-- One element and then those that are read. -/
theorem bind_cons_element (read : Option (List Element × List Char)) (e : Element) :
    (do
      let (elements, rest) ← read
      some (e :: elements, rest)) = read.map fun read => (e :: read.1, read.2) := by
  cases read <;> rfl

theorem readElements_number {n : Nat} (h : n < 0x20) (s : List Char) :
    readElements ('\\' :: 'u' :: '0' :: '0' :: hexDigit (n / 16) :: hexDigit (n % 16) :: s) =
      (readElements s).map fun read => (.unit n :: read.1, read.2) := by
  rw [readElements_unit, hexUnit?_of_lt h]
  exact bind_cons_element (readElements s) (.unit n)

theorem readElements_plain {c : Char} (hquote : c ≠ '"') (hslash : c ≠ '\\')
    (hhigh : ¬c.toNat < 0x20) (s : List Char) :
    readElements (c :: s) = (readElements s).map fun read => (.char c :: read.1, read.2) := by
  rw [readElements]
  · simp only [hhigh, hslash, beq_iff_eq, decide_false, Bool.false_or, if_false]
    exact bind_cons_element (readElements s) (.char c)
  · exact hquote
  · exact fun _ _ _ _ _ hc => absurd hc hslash
  · exact fun _ _ hc => absurd hc hslash

/-- A written character is read as one element. -/
theorem readElements_escapeChar (c : Char) (s : List Char) :
    readElements (escapeChar c ++ s) =
      (readElements s).map fun read => (elementOf c :: read.1, read.2) := by
  unfold escapeChar
  split
  · exact bind_cons_element (readElements s) (.char '"')
  · exact bind_cons_element (readElements s) (.char '\\')
  · exact bind_cons_element (readElements s) (.char '\x08')
  · exact bind_cons_element (readElements s) (.char '\x0c')
  · exact bind_cons_element (readElements s) (.char '\n')
  · exact bind_cons_element (readElements s) (.char '\r')
  · exact bind_cons_element (readElements s) (.char '\t')
  · rename_i hquote hslash hb hf hn hr ht
    have helement : elementOf c = if c.toNat < 0x20 then .unit c.toNat else .char c := by
      unfold elementOf
      split
      · exact (hb rfl).elim
      · exact (hf rfl).elim
      · exact (hn rfl).elim
      · exact (hr rfl).elim
      · exact (ht rfl).elim
      · rfl
    rw [helement]
    split
    · rename_i hlow
      exact readElements_number hlow s
    · rename_i hhigh
      exact readElements_plain hquote hslash hhigh s

/-- The written form of a text is read up to the quotation mark that ends it. -/
theorem readElements_flatMap (cs rest : List Char) :
    readElements (cs.flatMap escapeChar ++ '"' :: rest) = some (cs.map elementOf, rest) := by
  induction cs with
  | nil => exact readElements_quote rest
  | cons c cs ih =>
    rw [List.flatMap_cons, List.append_assoc, readElements_escapeChar, ih]
    rfl

theorem textOf?_unit {n : Nat} (h : n < 0x20) (elements : List Element) :
    textOf? (.unit n :: elements) = (textOf? elements).map (Char.ofNat n :: ·) := by
  have hhigh : isHighSurrogate n = false := by simp [isHighSurrogate]; omega
  have hlow : isLowSurrogate n = false := by simp [isLowSurrogate]; omega
  rcases elements with _ | ⟨_ | m, elements⟩ <;> simp [textOf?, hhigh, hlow]

/-- The elements that are read name the text that was written. -/
theorem textOf?_map_elementOf (cs : List Char) : textOf? (cs.map elementOf) = some cs := by
  induction cs with
  | nil => rfl
  | cons c cs ih =>
    have helement : elementOf c = .char c ∨ c.toNat < 0x20 ∧ elementOf c = .unit c.toNat := by
      unfold elementOf
      split
      · exact .inl rfl
      · exact .inl rfl
      · exact .inl rfl
      · exact .inl rfl
      · exact .inl rfl
      · split
        · exact .inr ⟨‹_›, rfl⟩
        · exact .inl rfl
    rw [List.map_cons]
    rcases helement with h | ⟨hlow, h⟩
    · rw [h, textOf?, ih]
      rfl
    · rw [h, textOf?_unit hlow, ih, Char.ofNat_toNat]
      rfl

/-- A string literal is read back, also one that names no text. -/
theorem readText_literal (content : Option String) (rest : List Char) :
    ∃ body, literal content ++ rest = '"' :: body ∧ readText body = some (content, rest) := by
  cases content with
  | none =>
    have hliteral : literal none = ['"', '\\', 'u', 'd', '8', '0', '0', '"'] := by
      decide
    have hunit : hexUnit? 'd' '8' '0' '0' = some 0xd800 := by decide
    refine ⟨'\\' :: 'u' :: 'd' :: '8' :: '0' :: '0' :: '"' :: rest, ?_, ?_⟩
    · rw [hliteral]
      rfl
    · rw [readText, readElements_unit, hunit, readElements_quote]
      rfl
  | some s =>
    refine ⟨s.toList.flatMap escapeChar ++ '"' :: rest, ?_, ?_⟩
    · show '"' :: s.toList.flatMap escapeChar ++ ['"'] ++ rest = _
      simp
    · rw [readText, readElements_flatMap]
      simp [textOf?_map_elementOf]

/-! ## Numbers -/

/-- Whether a text cannot go on with a number that ends before it. -/
def EndsNumber (rest : List Char) : Prop :=
  ∀ c ∈ rest.head?, isDigit c = false ∧ c ≠ '.' ∧ c ≠ 'e' ∧ c ≠ 'E'

theorem endsNumber_cons {c : Char} (h : isDigit c = false ∧ c ≠ '.' ∧ c ≠ 'e' ∧ c ≠ 'E')
    (rest : List Char) : EndsNumber (c :: rest) := by
  intro d hd
  cases hd
  exact h

/-- A number is written with a digit in front, and without a zero in front of others. -/
theorem decimal_eq_cons (n : Nat) :
    ∃ c cs, decimal n = c :: cs ∧ isDigit c = true ∧ (c = '0' → cs = []) := by
  induction n using decimal.induct with
  | case1 n hn =>
    exact ⟨digitChar n, [], decimal_of_lt hn, isDigit_digitChar hn, fun _ => rfl⟩
  | case2 n hn ih =>
    obtain ⟨c, cs, hcons, hdigit, hzero⟩ := ih
    refine ⟨c, cs ++ [digitChar (n % 10)], ?_, hdigit, fun hc => ?_⟩
    · rw [decimal_of_ge (by omega), hcons, List.cons_append]
    · -- The digits in front stand for a positive number, so they are not a zero alone.
      have hvalue := digitsValue_decimal (n / 10)
      rw [hcons, hzero hc, hc] at hvalue
      have hnone : digitsValue ['0'] 0 = 0 := rfl
      omega

theorem readDigitRun_append {digits rest : List Char} (hne : digits ≠ [])
    (hdigits : ∀ c ∈ digits, isDigit c = true) (hrest : EndsNumber rest) :
    readDigitRun (digits ++ rest) = some (digits, rest) := by
  have htake : rest.takeWhile isDigit = [] := by
    cases rest with
    | nil => rfl
    | cons c rest => simp [(hrest c rfl).1]
  have hdrop : rest.dropWhile isDigit = rest := by
    cases rest with
    | nil => rfl
    | cons c rest => simp [(hrest c rfl).1]
  rw [readDigitRun, List.takeWhile_append_of_pos hdigits, List.dropWhile_append_of_pos hdigits,
    htake, hdrop, List.append_nil]
  simp [hne]

theorem readWhole_decimal (n : Nat) {rest : List Char} (hrest : EndsNumber rest) :
    readWhole (decimal n ++ rest) = some (decimal n, rest) := by
  obtain ⟨c, cs, hcons, hdigit, hzero⟩ := decimal_eq_cons n
  by_cases hc : c = '0'
  · rw [hcons, hzero hc, hc]
    rfl
  · rw [hcons, List.cons_append, readWhole]
    · rw [← List.cons_append, ← hcons]
      exact readDigitRun_append (by simp [hcons]) (fun _ => isDigit_of_mem_decimal) hrest
    · exact fun s hs => hc (List.cons.inj hs).1

theorem readFraction_of_endsNumber {rest : List Char} (hrest : EndsNumber rest) :
    readFraction rest = some ([], rest) := by
  rw [readFraction]
  rintro s rfl
  exact (hrest '.' rfl).2.1 rfl

theorem readExponent_of_endsNumber {rest : List Char} (hrest : EndsNumber rest) :
    readExponent rest = some ([], rest) := by
  cases rest with
  | nil => rfl
  | cons c rest =>
    obtain ⟨-, -, hlower, hupper⟩ := hrest c rfl
    simp [readExponent, hlower, hupper]

/-- A number that is written in decimal is read up to its end. -/
theorem readNumber_decimal (n : Nat) {rest : List Char} (hrest : EndsNumber rest) :
    readNumber (decimal n ++ rest) = some (decimalString n, rest) := by
  obtain ⟨c, cs, hcons, hdigit, -⟩ := decimal_eq_cons n
  have hsign : c ≠ '-' := by
    rintro rfl
    cases hdigit
  have hhead : rest.head?.any isDigit = false := by
    cases rest with
    | nil => rfl
    | cons c rest => exact (hrest c rfl).1
  have hwhole := readWhole_decimal n hrest
  rw [hcons, List.cons_append] at hwhole ⊢
  unfold readNumber
  split
  rename_i sign s hs
  split at hs
  · rename_i t ht
    exact absurd (List.cons.inj ht).1 hsign
  · cases hs
    simp [hwhole, readFraction_of_endsNumber hrest, readExponent_of_endsNumber hrest, hhead,
      decimalString, hcons]

/-! ## White space -/

theorem skipSpace_newLine (level : Nat) (s : List Char) :
    skipSpace (newLine level ++ s) = skipSpace s := by
  refine List.dropWhile_append_of_pos fun c hc => ?_
  rcases List.mem_cons.1 hc with rfl | hc
  · rfl
  · rw [List.eq_of_mem_replicate hc]
    rfl

theorem skipSpace_blank (s : List Char) : skipSpace (' ' :: s) = skipSpace s := rfl

theorem skipSpace_cons {c : Char} (h : isSpace c = false) (s : List Char) :
    skipSpace (c :: s) = c :: s :=
  List.dropWhile_cons_of_neg (by simp [h])

/-! ## Steps of the readers -/

theorem readValue_quote (bound : Nat) (s : List Char) :
    readValue (bound + 1) ('"' :: s) = (readText s).map fun (text, rest) => (.text text, rest) :=
  rfl

theorem readValue_bracket (bound : Nat) (s : List Char) :
    readValue (bound + 1) ('[' :: s) =
      match skipSpace s with
      | ']' :: rest => some (.array [], rest)
      | _ => (readItems bound s).map fun (items, rest) => (.array items, rest) := rfl

theorem readValue_brace (bound : Nat) (s : List Char) :
    readValue (bound + 1) ('\x7b' :: s) =
      match skipSpace s with
      | '\x7d' :: rest => some (.object [], rest)
      | _ => (readMembers bound s).map fun (members, rest) => (.object members, rest) := rfl

theorem readItems_succ (bound : Nat) (s : List Char) :
    readItems (bound + 1) s = (do
      let (item, s) ← readValue bound s
      match skipSpace s with
      | ',' :: t =>
        let (items, rest) ← readItems bound t
        some (item :: items, rest)
      | ']' :: rest => some ([item], rest)
      | _ => none) := rfl

theorem readMembers_quote (bound : Nat) (s : List Char) :
    readMembers (bound + 1) ('"' :: s) = (do
      let (key, t) ← readText s
      match skipSpace t with
      | ':' :: t =>
        let (value, t) ← readValue bound t
        match skipSpace t with
        | ',' :: t =>
          let (members, rest) ← readMembers bound t
          some ((key, value) :: members, rest)
        | '\x7d' :: rest => some ([(key, value)], rest)
        | _ => none
      | _ => none) := rfl

/-- Values are read after white space. -/
theorem readValue_congr {s s' : List Char} (h : skipSpace s = skipSpace s') (bound : Nat) :
    readValue bound s = readValue bound s' := by
  cases bound with
  | zero => rfl
  | succ bound => rw [readValue, readValue, h]

theorem readItems_newLine (bound level : Nat) (s : List Char) :
    readItems bound (newLine level ++ s) = readItems bound s := by
  cases bound with
  | zero => rfl
  | succ bound =>
    rw [readItems_succ, readItems_succ, readValue_congr (skipSpace_newLine level s)]

theorem readMembers_newLine (bound level : Nat) (s : List Char) :
    readMembers bound (newLine level ++ s) = readMembers bound s := by
  cases bound with
  | zero => rfl
  | succ bound => rw [readMembers, readMembers, skipSpace_newLine]

/-! ## What is written -/

theorem write_number (level : Nat) (s : String) : (Value.number s).write level = s.toList := rfl

theorem write_text (level : Nat) (content : Option String) :
    (Value.text content).write level = literal content := rfl

theorem write_array (level : Nat) (item : Value) (items : List Value) :
    (Value.array (item :: items)).write level =
      '[' :: newLine (level + 1) ++ item.write (level + 1)
        ++ Value.writeItems (level + 1) items ++ newLine level ++ [']'] := rfl

theorem write_object (level : Nat) (key : Option String) (value : Value)
    (members : List (Option String × Value)) :
    (Value.object ((key, value) :: members)).write level =
      '\x7b' :: newLine (level + 1) ++ literal key ++ [':', ' '] ++ value.write (level + 1)
        ++ Value.writeMembers (level + 1) members ++ newLine level ++ ['\x7d'] := rfl

theorem writeItems_cons (level : Nat) (item : Value) (items : List Value) :
    Value.writeItems level (item :: items) =
      ',' :: newLine level ++ item.write level ++ Value.writeItems level items := rfl

theorem writeMembers_cons (level : Nat) (key : Option String) (value : Value)
    (members : List (Option String × Value)) :
    Value.writeMembers level ((key, value) :: members) =
      ',' :: newLine level ++ literal key ++ [':', ' '] ++ value.write level
        ++ Value.writeMembers level members := rfl

/-! ## Values -/

/-- Whether the numbers in a value are whole numbers in decimal. -/
inductive Value.IsPlain : Value → Prop
  | null : IsPlain .null
  | bool (b : Bool) : IsPlain (.bool b)
  | number (n : Nat) : IsPlain (.number (decimalString n))
  | text (content : Option String) : IsPlain (.text content)
  | array {items : List Value} (h : ∀ item ∈ items, IsPlain item) : IsPlain (.array items)
  | object {members : List (Option String × Value)} (h : ∀ m ∈ members, IsPlain m.2) :
    IsPlain (.object members)

/-- Whether a value is read back wherever it is written, with a bound of two steps for
each character. -/
def Value.IsRead (v : Value) : Prop :=
  ∀ level bound rest, 2 * (v.write level).length ≤ bound → EndsNumber rest →
    readValue (bound + 1) (v.write level ++ rest) = some (v, rest)

/-- A value is written with neither white space nor a closing bracket in front. -/
theorem Value.IsPlain.write_eq_cons {v : Value} (h : v.IsPlain) (level : Nat) :
    ∃ c cs, v.write level = c :: cs ∧ isSpace c = false ∧ c ≠ ']' := by
  cases h with
  | null => exact ⟨'n', _, rfl, rfl, by decide⟩
  | bool b =>
    cases b with
    | false => exact ⟨'f', _, rfl, rfl, by decide⟩
    | true => exact ⟨'t', _, rfl, rfl, by decide⟩
  | number n =>
    obtain ⟨c, cs, hcons, hdigit, -⟩ := decimal_eq_cons n
    refine ⟨c, cs, ?_, ?_, ?_⟩
    · rw [write_number, decimalString, String.toList_ofList, hcons]
    · rw [← Bool.not_eq_true]
      intro hspace
      simp only [isSpace, Bool.or_eq_true, beq_iff_eq] at hspace
      rcases hspace with ((rfl | rfl) | rfl) | rfl <;> cases hdigit
    · rintro rfl
      cases hdigit
  | text content =>
    obtain ⟨body, hliteral, -⟩ := readText_literal content []
    rw [List.append_nil] at hliteral
    exact ⟨'"', body, by rw [write_text, hliteral], rfl, by decide⟩
  | @array items _ =>
    cases items with
    | nil => exact ⟨'[', _, rfl, rfl, by decide⟩
    | cons item items => exact ⟨'[', _, rfl, rfl, by decide⟩
  | @object members _ =>
    cases members with
    | nil => exact ⟨'\x7b', _, rfl, rfl, by decide⟩
    | cons m members => exact ⟨'\x7b', _, rfl, rfl, by decide⟩

theorem endsNumber_newLine (level : Nat) (rest : List Char) : EndsNumber (newLine level ++ rest) :=
  endsNumber_cons (by decide) _

theorem endsNumber_writeItems (level close : Nat) (items : List Value) (rest : List Char) :
    EndsNumber (Value.writeItems level items ++ (newLine close ++ rest)) := by
  cases items with
  | nil => exact endsNumber_newLine close rest
  | cons item items => exact endsNumber_cons (by decide) _

theorem endsNumber_writeMembers (level close : Nat) (members : List (Option String × Value))
    (rest : List Char) :
    EndsNumber (Value.writeMembers level members ++ (newLine close ++ rest)) := by
  cases members with
  | nil => exact endsNumber_newLine close rest
  | cons m members => exact endsNumber_cons (by decide) _

/-- The items of an array are read up to its end when each of them is. -/
theorem readItems_write {item : Value} {items : List Value}
    (h : ∀ v ∈ item :: items, v.IsRead) {level bound : Nat} (close : Nat)
    (hbound : 2 * ((item.write level).length + (Value.writeItems level items).length) ≤ bound)
    (rest : List Char) :
    readItems (bound + 2)
      (item.write level ++ (Value.writeItems level items ++ (newLine close ++ ']' :: rest))) =
      some (item :: items, rest) := by
  induction items generalizing item bound with
  | nil =>
    rw [readItems_succ, h item List.mem_cons_self level bound _ (by omega)
      (endsNumber_writeItems level close [] _), show Value.writeItems level [] = [] from rfl,
      List.nil_append]
    simp only [Option.bind_eq_bind, Option.bind_some, skipSpace_newLine]
    rw [skipSpace_cons rfl]
    rfl
  | cons next items ih =>
    rw [readItems_succ, h item List.mem_cons_self level bound _ (by omega)
      (endsNumber_writeItems level close _ _), writeItems_cons]
    rw [writeItems_cons] at hbound
    obtain ⟨fewer, rfl⟩ : ∃ n, bound = n + 1 := ⟨bound - 1, by simp [newLine] at hbound; omega⟩
    have hnext := @ih next (fun v hv => h v (List.mem_cons_of_mem _ hv)) fewer
      (by simp [newLine] at hbound; omega)
    simp only [Option.bind_eq_bind, Option.bind_some, List.cons_append, List.append_assoc]
    rw [skipSpace_cons rfl]
    simp only [readItems_newLine, hnext, Option.bind_some]

/-- The members of an object are read up to its end when the value of each of them is. -/
theorem readMembers_write {key : Option String} {value : Value}
    {members : List (Option String × Value)} (h : ∀ m ∈ (key, value) :: members, m.2.IsRead)
    {level bound : Nat} (close : Nat)
    (hbound : 2 * ((value.write level).length + (Value.writeMembers level members).length) ≤ bound)
    (rest : List Char) :
    readMembers (bound + 2)
      (literal key ++ (':' :: ' ' :: (value.write level ++
        (Value.writeMembers level members ++ (newLine close ++ '\x7d' :: rest))))) =
      some ((key, value) :: members, rest) := by
  induction members generalizing key value bound with
  | nil =>
    obtain ⟨body, hliteral, hread⟩ := readText_literal key
      (':' :: ' ' :: (value.write level ++
        (Value.writeMembers level [] ++ (newLine close ++ '\x7d' :: rest))))
    have hvalue : value.IsRead := h _ List.mem_cons_self
    rw [hliteral, readMembers_quote]
    simp only [hread, Option.bind_eq_bind, Option.bind_some]
    rw [skipSpace_cons rfl]
    simp only [readValue_congr (skipSpace_blank _), Option.bind_some,
      show Value.writeMembers level [] = [] from rfl, List.nil_append,
      hvalue level bound _ (by omega) (endsNumber_newLine close _), skipSpace_newLine]
    rw [skipSpace_cons rfl]
    rfl
  | cons next members ih =>
    obtain ⟨nextKey, nextValue⟩ := next
    obtain ⟨body, hliteral, hread⟩ := readText_literal key
      (':' :: ' ' :: (value.write level ++
        (Value.writeMembers level ((nextKey, nextValue) :: members) ++
          (newLine close ++ '\x7d' :: rest))))
    have hvalue : value.IsRead := h _ List.mem_cons_self
    have hfirst := hvalue level bound _ (by omega)
      (endsNumber_writeMembers level close ((nextKey, nextValue) :: members) ('\x7d' :: rest))
    rw [writeMembers_cons] at hbound
    obtain ⟨fewer, rfl⟩ : ∃ n, bound = n + 1 := ⟨bound - 1, by simp [newLine] at hbound; omega⟩
    have hnext := @ih nextKey nextValue (fun m hm => h m (List.mem_cons_of_mem _ hm)) fewer
      (by simp [newLine] at hbound; omega)
    rw [hliteral, readMembers_quote]
    simp only [hread, Option.bind_eq_bind, Option.bind_some]
    rw [skipSpace_cons rfl]
    simp only [readValue_congr (skipSpace_blank _), hfirst, Option.bind_some]
    simp only [writeMembers_cons, List.cons_append, List.append_assoc, List.nil_append]
    rw [skipSpace_cons rfl]
    simp only [readMembers_newLine, hnext, Option.bind_some]

/-! ## Documents -/

theorem readValue_literal {content : Option String} (bound : Nat) (rest : List Char) :
    readValue (bound + 1) (literal content ++ rest) = some (.text content, rest) := by
  obtain ⟨body, hliteral, hread⟩ := readText_literal content rest
  rw [hliteral, readValue_quote, hread]
  rfl

theorem readValue_decimal {n bound : Nat} {rest : List Char} (hrest : EndsNumber rest) :
    readValue (bound + 1) (decimal n ++ rest) = some (.number (decimalString n), rest) := by
  obtain ⟨c, cs, hcons, hdigit, -⟩ := decimal_eq_cons n
  have hnumber := readNumber_decimal n hrest
  have hne : ∀ d : Char, isDigit d = false → c ≠ d := by
    rintro d hd rfl
    rw [hdigit] at hd
    cases hd
  have hspace : isSpace c = false := by
    simp [isSpace, hne ' ' rfl, hne '\n' rfl, hne '\t' rfl, hne '\r' rfl]
  rw [hcons, List.cons_append] at hnumber ⊢
  rw [readValue, skipSpace_cons hspace]
  simp [hne '"' rfl, hne '[' rfl, hne '\x7b' rfl, hne 't' rfl, hne 'f' rfl, hne 'n' rfl, hnumber]

theorem readValue_items {items : List Value} {bound : Nat} {t rest : List Char}
    (hopen : (skipSpace t).head? ≠ some ']') (h : readItems bound t = some (items, rest)) :
    readValue (bound + 1) ('[' :: t) = some (.array items, rest) := by
  rw [readValue_bracket, h]
  split
  · rename_i heq
    exact absurd (congrArg List.head? heq) hopen
  · rfl

theorem readValue_members {members : List (Option String × Value)} {bound : Nat}
    {t rest : List Char} (hopen : (skipSpace t).head? ≠ some '\x7d')
    (h : readMembers bound t = some (members, rest)) :
    readValue (bound + 1) ('\x7b' :: t) = some (.object members, rest) := by
  rw [readValue_brace, h]
  split
  · rename_i heq
    exact absurd (congrArg List.head? heq) hopen
  · rfl

/-- A plain value is read back wherever it is written. -/
theorem Value.IsPlain.isRead {v : Value} (h : v.IsPlain) : v.IsRead := by
  induction h with
  | null => exact fun level bound rest _ _ => rfl
  | bool b =>
    intro level bound rest _ _
    cases b <;> rfl
  | number n =>
    intro level bound rest _ hrest
    rw [write_number, decimalString, String.toList_ofList]
    exact readValue_decimal hrest
  | text content =>
    intro level bound rest _ _
    exact readValue_literal bound rest
  | @array items hitems ih =>
    intro level bound rest hbound _
    cases items with
    | nil => rfl
    | cons item items =>
      obtain ⟨c, cs, hcons, hspace, hclose⟩ :=
        (hitems item List.mem_cons_self).write_eq_cons (level + 1)
      rw [write_array] at hbound ⊢
      obtain ⟨fewer, rfl⟩ : ∃ n, bound = n + 2 := ⟨bound - 2, by simp at hbound; omega⟩
      have hall := @readItems_write item items ih (level + 1) fewer level
        (by simp at hbound; omega) rest
      simp only [List.cons_append, List.append_assoc, List.nil_append]
      refine readValue_items ?_ ((readItems_newLine _ _ _).trans hall)
      rw [skipSpace_newLine, hcons, List.cons_append, skipSpace_cons hspace]
      exact fun hc => hclose (Option.some.inj hc)
  | @object members _ ih =>
    intro level bound rest hbound _
    cases members with
    | nil => rfl
    | cons m members =>
      obtain ⟨key, value⟩ := m
      rw [write_object] at hbound ⊢
      obtain ⟨fewer, rfl⟩ : ∃ n, bound = n + 2 := ⟨bound - 2, by simp at hbound; omega⟩
      have hall := @readMembers_write key value members ih (level + 1) fewer level
        (by simp at hbound; omega) rest
      simp only [List.cons_append, List.append_assoc, List.nil_append]
      refine readValue_members ?_ ((readMembers_newLine _ _ _).trans hall)
      obtain ⟨body, hliteral, -⟩ := readText_literal key _
      rw [skipSpace_newLine, hliteral, skipSpace_cons rfl]
      exact nofun

/-- A plain document is read back. -/
theorem Value.IsPlain.read?_print {v : Value} (h : v.IsPlain) :
    Value.read? v.print.toList = some v := by
  have hread := h.isRead 0 (2 * (v.write 0).length + 1) [] (by omega)
    (fun c hc => nomatch hc)
  rw [List.append_nil] at hread
  rw [read?, print, String.toList_ofList, hread]
  rfl

end Marginalia.Json
