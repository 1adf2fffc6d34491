import HarmonyMigration.Lib.Decimal

/-! JSON texts of naturals, strings and objects. A text that reads as an object does not read as
anything when it is cut short or followed by more. -/

namespace HarmonyMigration.Json
open Decimal

/-! ### Strings -/

/-- The four digits behind `\u`. -/
def hex4 (n : ℕ) : Text :=
  [Nat.digitChar (n / 4096 % 16), Nat.digitChar (n / 256 % 16), Nat.digitChar (n / 16 % 16), Nat.digitChar (n % 16)]

def unicode (n : ℕ) : Text := '\\' :: 'u' :: hex4 n

def short (c : Char) : Option Char :=
  if c = '"' then some '"' else if c = '\\' then some '\\' else if c = '\n' then some 'n'
  else if c = '\r' then some 'r' else if c = '\t' then some 't'
  else if c = '\x08' then some 'b' else if c = '\x0c' then some 'f' else none

/-- A character as the writer puts it into a string: printable ASCII stays, everything else is escaped. -/
def escape (c : Char) : Text :=
  match short c with
  | some e => ['\\', e]
  | none =>
    if ' ' ≤ c ∧ c ≤ '~' then [c]
    else if c.toNat < 0x10000 then unicode c.toNat
    else unicode (0xD800 + (c.toNat - 0x10000) / 0x400) ++ unicode (0xDC00 + (c.toNat - 0x10000) % 0x400)

def quote (s : Text) : Text := '"' :: (s.flatMap escape ++ ['"'])

def unhex (c : Char) : Option ℕ := (List.range 16).find? fun n => Nat.digitChar n = c.toLower

def unhex4 (a b c d : Char) : Option ℕ :=
  (unhex a).bind fun a => (unhex b).bind fun b => (unhex c).bind fun c => (unhex d).map fun d =>
    4096 * a + 256 * b + 16 * c + d

def unescape (e : Char) : Option Char :=
  if e = '"' ∨ e = '\\' ∨ e = '/' then some e else if e = 'n' then some '\n' else if e = 'r' then some '\r'
  else if e = 't' then some '\t' else if e = 'b' then some '\x08' else if e = 'f' then some '\x0c' else none

/-- The second half of a character written as a surrogate pair. -/
def readLow (high : ℕ) : Text → Option (Char × Text)
  | '\\' :: 'u' :: a :: b :: c :: d :: t =>
    (unhex4 a b c d).bind fun n =>
      if 0xDC00 ≤ n ∧ n < 0xE000 then some (Char.ofNat (0x10000 + (high - 0xD800) * 0x400 + (n - 0xDC00)), t) else none
  | _ => none

/-- One character of a string. -/
def readChar : Text → Option (Char × Text)
  | '\\' :: 'u' :: a :: b :: c :: d :: t =>
    (unhex4 a b c d).bind fun n => if 0xD800 ≤ n ∧ n < 0xDC00 then readLow n t else some (Char.ofNat n, t)
  | '\\' :: e :: t => (unescape e).map fun c => (c, t)
  | c :: t => if c ≠ '\\' ∧ ' ' ≤ c then some (c, t) else none
  | [] => none

/-- The rest of a string behind its opening quote, and what follows it. -/
def readString : ℕ → Text → Option (Text × Text)
  | 0, _ => none
  | fuel + 1, t =>
    if t.head? = some '"' then some ([], t.tail)
    else (readChar t).bind fun p => (readString fuel p.2).map fun q => (p.1 :: q.1, q.2)

theorem unhex_digitChar {n : ℕ} (h : n < 16) : unhex (Nat.digitChar n) = some n := by
  have hall : ∀ n < 16, unhex (Nat.digitChar n) = some n := by decide
  exact hall n h

theorem unhex4_hex4 {n : ℕ} (h : n < 65536) :
    unhex4 (Nat.digitChar (n / 4096 % 16)) (Nat.digitChar (n / 256 % 16)) (Nat.digitChar (n / 16 % 16))
      (Nat.digitChar (n % 16)) = some n := by
  have hlt : ∀ m : ℕ, m % 16 < 16 := fun m => Nat.mod_lt _ (by decide)
  rw [unhex4, unhex_digitChar (hlt _), unhex_digitChar (hlt _), unhex_digitChar (hlt _), unhex_digitChar (hlt _)]
  simp only [Option.bind_some, Option.map_some, Option.some.injEq]
  omega

theorem readLow_unicode {high n : ℕ} (h : 0xDC00 ≤ n ∧ n < 0xE000) (t : Text) :
    readLow high (unicode n ++ t) = some (Char.ofNat (0x10000 + (high - 0xD800) * 0x400 + (n - 0xDC00)), t) := by
  simp only [unicode, hex4, List.cons_append, List.nil_append, readLow, unhex4_hex4 (show n < 65536 by omega),
    Option.bind_some, if_pos h]

theorem readChar_unicode {n : ℕ} (h : n < 65536) (t : Text) :
    readChar (unicode n ++ t) = if 0xD800 ≤ n ∧ n < 0xDC00 then readLow n t else some (Char.ofNat n, t) := by
  simp only [unicode, hex4, List.cons_append, List.nil_append, readChar, unhex4_hex4 h, Option.bind_some]

theorem unescape_short {c e : Char} (h : short c = some e) : unescape e = some c ∧ e ≠ 'u' := by
  unfold short at h
  split_ifs at h <;> subst_vars <;> cases h <;> decide

theorem readChar_escaped {e : Char} (h : e ≠ 'u') (t : Text) :
    readChar ('\\' :: e :: t) = (unescape e).map fun c => (c, t) := by
  unfold readChar
  split
  · simp_all
  · simp_all
  · next hnot heq =>
    obtain ⟨rfl, rfl⟩ := List.cons.inj heq
    exact absurd rfl (hnot _ _ rfl)
  · simp_all

theorem readChar_plain {c : Char} (hslash : c ≠ '\\') (hspace : ' ' ≤ c) (t : Text) :
    readChar (c :: t) = some (c, t) := by
  unfold readChar
  split
  · simp_all
  · simp_all
  · next heq =>
    obtain ⟨rfl, rfl⟩ := List.cons.inj heq
    exact if_pos ⟨hslash, hspace⟩
  · simp_all

/-- A character reads back from the text written for it, whatever follows. -/
theorem readChar_escape (c : Char) (t : Text) : readChar (escape c ++ t) = some (c, t) := by
  unfold escape
  cases hshort : short c with
  | some e =>
    obtain ⟨he, hu⟩ := unescape_short hshort
    simp only [List.cons_append, List.nil_append, readChar_escaped hu, he, Option.map_some]
  | none =>
    have hslash : c ≠ '\\' := by
      rintro rfl
      simp [short] at hshort
    split_ifs with hplain hlow
    · exact readChar_plain hslash hplain.1 t
    · have hvalid := c.valid
      rw [readChar_unicode hlow, if_neg, Char.ofNat_toNat]
      rintro ⟨h1, h2⟩
      have hval : c.val.toNat = c.toNat := rfl
      rcases hvalid with h | ⟨h, -⟩ <;> omega
    · have hmax : c.toNat < 0x110000 := by
        rcases c.valid with h | ⟨-, h⟩
        · exact lt_trans h (by decide)
        · exact h
      rw [List.append_assoc, readChar_unicode (by omega), if_pos (by omega), readLow_unicode (by omega)]
      have hnat : 0x10000 + (0xD800 + (c.toNat - 0x10000) / 0x400 - 0xD800) * 0x400 +
          (0xDC00 + (c.toNat - 0x10000) % 0x400 - 0xDC00) = c.toNat := by omega
      rw [hnat, Char.ofNat_toNat]

theorem head?_escape_append (c : Char) (t : Text) : (escape c ++ t).head? ≠ some '"' ∧ escape c ≠ [] := by
  unfold escape
  cases hshort : short c with
  | some e => simp
  | none =>
    have hquote : c ≠ '"' := by
      rintro rfl
      simp [short] at hshort
    split_ifs <;> simp [unicode, hquote]

theorem readString_escape {s : Text} {fuel : ℕ} (t : Text) (h : s.length < fuel) :
    readString fuel (s.flatMap escape ++ '"' :: t) = some (s, t) := by
  induction s generalizing fuel with
  | nil =>
    cases fuel with
    | zero => omega
    | succ fuel => simp [readString]
  | cons c s ih =>
    cases fuel with
    | zero => simp at h
    | succ fuel =>
      rw [List.flatMap_cons, List.append_assoc, readString, if_neg (head?_escape_append c _).1, readChar_escape]
      simp only [Option.bind_some, ih (show s.length < fuel by simpa using h), Option.map_some]

/-! What was read stays what is read when more text follows. -/

theorem readLow_append {high : ℕ} {p r : Text} {c : Char} (h : readLow high p = some (c, r)) (u : Text) :
    readLow high (p ++ u) = some (c, r ++ u) := by
  unfold readLow at h
  split at h
  · obtain ⟨n, hn, h⟩ := Option.bind_eq_some_iff.mp h
    simp only [List.cons_append, readLow, hn, Option.bind_some]
    split_ifs at h ⊢ with hlow
    rw [Option.some.injEq, Prod.mk.injEq] at h ⊢
    exact ⟨h.1, congrArg (· ++ u) h.2⟩
  · cases h

theorem readChar_append {p r : Text} {c : Char} (h : readChar p = some (c, r)) (u : Text) :
    readChar (p ++ u) = some (c, r ++ u) := by
  unfold readChar at h
  split at h
  · obtain ⟨n, hn, h⟩ := Option.bind_eq_some_iff.mp h
    simp only [List.cons_append, readChar, hn, Option.bind_some]
    split_ifs at h ⊢
    · exact readLow_append h u
    · rw [Option.some.injEq, Prod.mk.injEq] at h ⊢
      exact ⟨h.1, congrArg (· ++ u) h.2⟩
  · next e t hnot =>
    obtain ⟨d, hd, h⟩ := Option.map_eq_some_iff.mp h
    have hu : e ≠ 'u' := by
      rintro rfl
      simp [unescape] at hd
    cases h
    rw [List.cons_append, List.cons_append, readChar_escaped hu, hd]
    rfl
  · next d t _ _ =>
    split_ifs at h with hd
    cases h
    exact readChar_plain hd.1 hd.2 _
  · cases h

theorem readString_append {fuel fuel' : ℕ} {p s r : Text} (h : readString fuel p = some (s, r)) (hle : fuel ≤ fuel')
    (u : Text) : readString fuel' (p ++ u) = some (s, r ++ u) := by
  induction fuel generalizing fuel' p s with
  | zero => cases h
  | succ fuel ih =>
    cases fuel' with
    | zero => omega
    | succ fuel' =>
      cases p with
      | nil => simp [readString, readChar] at h
      | cons a p =>
        rw [readString] at h ⊢
        rw [List.cons_append, List.head?_cons] at *
        split_ifs at h ⊢ with ha
        · cases h
          rfl
        · obtain ⟨⟨c, t⟩, hc, h⟩ := Option.bind_eq_some_iff.mp h
          obtain ⟨⟨s', r'⟩, hs, h⟩ := Option.map_eq_some_iff.mp h
          cases h
          have happ := readChar_append hc u
          rw [List.cons_append] at happ
          rw [happ, Option.bind_some, ih hs (by omega)]
          rfl

/-! ### Values -/

mutual
inductive Value
  | num (n : ℕ)
  | str (s : Text)
  | obj (fields : Fields)

inductive Fields
  | nil
  | cons (key : Text) (value : Value) (rest : Fields)
end

mutual
def Value.dumps : Value → Text
  | .num n => render n
  | .str s => quote s
  | .obj fields => '{' :: fields.dumps true

/-- What stands behind the opening brace. -/
def Fields.dumps : Bool → Fields → Text
  | _, .nil => ['}']
  | first, .cons key value rest =>
    (if first then [] else [',', ' ']) ++ quote key ++ ':' :: ' ' :: value.dumps ++ rest.dumps false
end

def isSpace (c : Char) : Bool := c = ' ' || c = '\t' || c = '\n' || c = '\r'

def skip (t : Text) : Text := t.dropWhile isSpace

/-- What follows `c`, behind spaces. -/
def expect (c : Char) (t : Text) : Option Text :=
  match skip t with
  | d :: t => if d = c then some t else none
  | [] => none

def readNumber (t : Text) : Option (Value × Text) :=
  if (t.takeWhile Char.isDigit) = [] then none
  else some (.num (Nat.ofDigitChars 10 (t.takeWhile Char.isDigit) 0), t.dropWhile Char.isDigit)

mutual
def readValue : ℕ → Text → Option (Value × Text)
  | 0, _ => none
  | fuel + 1, t =>
    match skip t with
    | [] => none
    | c :: t =>
      if c = '{' then (readFields fuel true t).map fun p => (.obj p.1, p.2)
      else if c = '"' then (readString (t.length + 1) t).map fun p => (.str p.1, p.2)
      else readNumber (c :: t)

def readFields : ℕ → Bool → Text → Option (Fields × Text)
  | 0, _, _ => none
  | fuel + 1, first, t =>
    match expect '}' t with
    | some t => some (.nil, t)
    | none =>
      (if first then some t else expect ',' t).bind fun t =>
      (expect '"' t).bind fun t =>
      (readString (t.length + 1) t).bind fun key =>
      (expect ':' key.2).bind fun t =>
      (readValue fuel t).bind fun value =>
      (readFields fuel false value.2).map fun rest => (.cons key.1 value.1 rest.1, rest.2)
end

/-- `json.loads`, for the values above: the whole text is one value. -/
def loads (t : Text) : Option Value :=
  (readValue (t.length + 1) t).bind fun p => if skip p.2 = [] then some p.1 else none

theorem skip_of_not_isSpace {c : Char} (h : isSpace c = false) (t : Text) : skip (c :: t) = c :: t := by
  rw [skip, List.dropWhile_cons_of_neg (by simp [h])]

theorem skip_append {p : Text} (h : skip p ≠ []) (u : Text) : skip (p ++ u) = skip p ++ u := by
  unfold skip at h ⊢
  induction p with
  | nil => exact absurd rfl h
  | cons c p ih =>
    rw [List.cons_append]
    cases hc : isSpace c with
    | true =>
      rw [List.dropWhile_cons_of_pos hc] at h ⊢
      rw [List.dropWhile_cons_of_pos hc]
      exact ih h
    | false => rw [List.dropWhile_cons_of_neg (by simp [hc]), List.dropWhile_cons_of_neg (by simp [hc]), List.cons_append]

theorem expect_cons {c : Char} (h : isSpace c = false) (t : Text) : expect c (c :: t) = some t := by
  rw [expect, skip_of_not_isSpace h]
  exact if_pos rfl

theorem expect_space (c : Char) (t : Text) : expect c (' ' :: t) = expect c t := rfl

theorem expect_ne {c d : Char} (hd : isSpace d = false) (h : d ≠ c) (t : Text) : expect c (d :: t) = none := by
  rw [expect, skip_of_not_isSpace hd]
  exact if_neg h

theorem of_expect {c : Char} {p t : Text} (h : expect c p = some t) : skip p = c :: t := by
  unfold expect at h
  split at h
  · next hskip =>
    split_ifs at h with hd
    cases h
    rw [hskip, hd]
  · cases h

theorem expect_append {c : Char} {p t : Text} (h : expect c p = some t) (u : Text) :
    expect c (p ++ u) = some (t ++ u) := by
  have hp := of_expect h
  rw [expect, skip_append (by rw [hp]; exact List.cons_ne_nil _ _), hp]
  exact if_pos rfl

theorem expect_append_ne {c d : Char} {p t : Text} (h : expect c p = some t) (hd : c ≠ d) (u : Text) :
    expect d (p ++ u) = none := by
  have hp := of_expect h
  rw [expect, skip_append (by rw [hp]; exact List.cons_ne_nil _ _), hp]
  exact if_neg hd

/-! ### Round trip -/

/-- The text does not go on with a digit. -/
def NoDigit (t : Text) : Prop := ∀ c ∈ t.head?, c.isDigit = false

theorem readNumber_render (n : ℕ) {t : Text} (h : NoDigit t) : readNumber (render n ++ t) = some (.num n, t) := by
  have hdigits : ∀ c ∈ render n, c.isDigit = true := fun c hc => isDigit_of_mem_render hc
  have htake : (render n ++ t).takeWhile Char.isDigit = render n := by
    rw [List.takeWhile_append_of_pos hdigits]
    cases t with
    | nil => simp
    | cons c t => rw [List.takeWhile_cons_of_neg (by simp [h c rfl]), List.append_nil]
  have hdrop : (render n ++ t).dropWhile Char.isDigit = t := by
    rw [List.dropWhile_append_of_pos hdigits]
    cases t with
    | nil => rfl
    | cons c t => rw [List.dropWhile_cons_of_neg (by simp [h c rfl])]
  rw [readNumber, htake, hdrop, if_neg (render_ne_nil n)]
  exact congrArg (fun m => some (Value.num m, t)) Nat.ofDigitChars_ten_toDigits

theorem length_escape_pos (c : Char) : 0 < (escape c).length :=
  List.length_pos_iff.mpr (head?_escape_append c []).2

theorem length_le_flatMap_escape (s : Text) : s.length ≤ (s.flatMap escape).length := by
  induction s with
  | nil => exact le_rfl
  | cons c s ih =>
    have := length_escape_pos c
    rw [List.flatMap_cons, List.length_append, List.length_cons]
    omega

theorem readString_quote (s t : Text) :
    readString ((s.flatMap escape ++ '"' :: t).length + 1) (s.flatMap escape ++ '"' :: t) = some (s, t) := by
  have := length_le_flatMap_escape s
  refine readString_escape t ?_
  rw [List.length_append]
  omega

theorem isSpace_of_isDigit {c : Char} (h : c.isDigit = true) : isSpace c = false ∧ c ≠ '{' ∧ c ≠ '"' := by
  have hne : ∀ d : Char, d.isDigit = false → c ≠ d := by
    intro d hd hcd
    rw [hcd, hd] at h
    cases h
  refine ⟨?_, hne _ (by decide), hne _ (by decide)⟩
  simp [isSpace, hne ' ' (by decide), hne '\t' (by decide), hne '\n' (by decide), hne '\r' (by decide)]

theorem noDigit_dumps (fields : Fields) (t : Text) : NoDigit (fields.dumps false ++ t) := by
  cases fields <;> simp [Fields.dumps, NoDigit]

mutual
theorem readValue_dumps (v : Value) {fuel : ℕ} {t : Text} (hfuel : v.dumps.length < fuel) (ht : NoDigit t) :
    readValue fuel (v.dumps ++ t) = some (v, t) := by
  cases fuel with
  | zero => omega
  | succ fuel =>
    cases v with
    | num n =>
      rw [Value.dumps, readValue]
      cases hr : render n with
      | nil => exact absurd hr (render_ne_nil n)
      | cons c r =>
        obtain ⟨hspace, hbrace, hquote⟩ := isSpace_of_isDigit (isDigit_of_mem_render (n := n) (c := c) (by simp [hr]))
        rw [List.cons_append, skip_of_not_isSpace hspace]
        simp only [if_neg hbrace, if_neg hquote]
        rw [← List.cons_append, ← hr, readNumber_render n ht]
    | str s =>
      rw [Value.dumps, readValue, quote, List.cons_append, skip_of_not_isSpace (by decide), List.append_assoc]
      simp only [show ('"' = '{') = False by simp, if_false, if_true, List.singleton_append]
      rw [readString_quote]
      rfl
    | obj fields =>
      rw [Value.dumps, readValue, List.cons_append, skip_of_not_isSpace (by decide)]
      simp only [if_true]
      rw [readFields_dumps fields true (by rw [Value.dumps, List.length_cons] at hfuel; omega)]
      rfl

theorem readFields_dumps (fields : Fields) (first : Bool) {fuel : ℕ} {t : Text}
    (hfuel : (fields.dumps first).length < fuel) :
    readFields fuel first (fields.dumps first ++ t) = some (fields, t) := by
  cases fuel with
  | zero => omega
  | succ fuel =>
    cases fields with
    | nil =>
      rw [Fields.dumps, readFields, List.singleton_append, expect_cons (by decide)]
    | cons key value rest =>
      have hlength : value.dumps.length < fuel ∧ (rest.dumps false).length < fuel := by
        rw [Fields.dumps] at hfuel
        simp only [List.length_append, List.length_cons, quote] at hfuel
        omega
      have hvalue := readValue_dumps value hlength.1 (noDigit_dumps rest t)
      have hspaced : readValue fuel (' ' :: (value.dumps ++ (rest.dumps false ++ t))) =
          some (value, rest.dumps false ++ t) := by
        rw [← hvalue]
        cases fuel with
        | zero => omega
        | succ fuel => rfl
      have hbody : ∀ tail : Text, expect '"' (quote key ++ tail) = some (key.flatMap escape ++ '"' :: tail) := by
        intro tail
        rw [quote, List.cons_append, expect_cons (by decide), List.append_assoc]
        rfl
      rw [Fields.dumps, readFields]
      cases first with
      | true =>
        simp only [if_true, List.nil_append, List.append_assoc, List.cons_append]
        rw [quote, List.cons_append, expect_ne (by decide) (by decide)]
        simp only [Option.bind_some]
        rw [← List.cons_append, ← quote, hbody]
        simp only [Option.bind_some, readString_quote, expect_cons (show isSpace ':' = false by decide), hspaced,
          readFields_dumps rest false hlength.2, Option.map_some]
      | false =>
        simp only [Bool.false_eq_true, if_false, List.append_assoc, List.cons_append, List.nil_append]
        rw [expect_ne (by decide) (by decide), expect_cons (by decide)]
        simp only [Option.bind_some, expect_space]
        rw [hbody]
        simp only [Option.bind_some, readString_quote, expect_cons (show isSpace ':' = false by decide), hspaced,
          readFields_dumps rest false hlength.2, Option.map_some]
end

/-! ### More text behind what was read -/

theorem readNumber_append {p r : Text} {v : Value} (h : readNumber p = some (v, r)) (hr : r ≠ []) (u : Text) :
    readNumber (p ++ u) = some (v, r ++ u) := by
  unfold readNumber at h
  split_ifs at h with hnil
  rw [Option.some.injEq, Prod.mk.injEq] at h
  obtain ⟨rfl, rfl⟩ := h
  have hsplit := List.takeWhile_append_dropWhile (p := Char.isDigit) (l := p)
  cases hd : p.dropWhile Char.isDigit with
  | nil => exact absurd hd hr
  | cons c d =>
    have hc : c.isDigit = false := by simpa [hd] using List.head?_dropWhile_not Char.isDigit p
    have hdigits : ∀ x ∈ p.takeWhile Char.isDigit, x.isDigit = true := fun x hx => List.all_eq_true.mp List.all_takeWhile x hx
    have htext : p ++ u = p.takeWhile Char.isDigit ++ (c :: (d ++ u)) := by
      rw [← List.cons_append, ← List.append_assoc, ← hd, hsplit]
    have htake : (p ++ u).takeWhile Char.isDigit = p.takeWhile Char.isDigit := by
      rw [htext, List.takeWhile_append_of_pos hdigits, List.takeWhile_cons_of_neg (by simp [hc]), List.append_nil]
    have hdrop : (p ++ u).dropWhile Char.isDigit = c :: (d ++ u) := by
      rw [htext, List.dropWhile_append_of_pos hdigits, List.dropWhile_cons_of_neg (by simp [hc])]
    rw [readNumber, htake, hdrop, if_neg hnil]
    rfl

mutual
theorem readValue_append {fuel fuel' : ℕ} {p r : Text} {v : Value} (h : readValue fuel p = some (v, r))
    (hle : fuel ≤ fuel') (hr : r ≠ [] ∨ ∃ fields, v = .obj fields) (u : Text) :
    readValue fuel' (p ++ u) = some (v, r ++ u) := by
  cases fuel with
  | zero => cases h
  | succ fuel =>
    cases fuel' with
    | zero => omega
    | succ fuel' =>
      rw [readValue] at h ⊢
      cases hskip : skip p with
      | nil => simp [hskip] at h
      | cons c t =>
        rw [skip_append (by simp [hskip]), hskip]
        simp only [hskip, List.cons_append] at h ⊢
        split_ifs at h ⊢ with hbrace hquote
        · obtain ⟨⟨fields, rest⟩, hfields, h⟩ := Option.map_eq_some_iff.mp h
          cases h
          rw [readFields_append hfields (by omega)]
          rfl
        · obtain ⟨⟨s, rest⟩, hs, h⟩ := Option.map_eq_some_iff.mp h
          cases h
          rw [readString_append hs (by simp)]
          rfl
        · have hnum : r ≠ [] := by
            rcases hr with hr | ⟨fields, rfl⟩
            · exact hr
            · unfold readNumber at h
              split_ifs at h
              cases h
          exact readNumber_append h hnum u

theorem readFields_append {fuel fuel' : ℕ} {first : Bool} {p r : Text} {fields : Fields}
    (h : readFields fuel first p = some (fields, r)) (hle : fuel ≤ fuel') (u : Text) :
    readFields fuel' first (p ++ u) = some (fields, r ++ u) := by
  cases fuel with
  | zero => cases h
  | succ fuel =>
    cases fuel' with
    | zero => omega
    | succ fuel' =>
      rw [readFields] at h ⊢
      cases hclose : expect '}' p with
      | some t =>
        rw [hclose] at h
        cases h
        rw [expect_append hclose]
      | none =>
        rw [hclose] at h
        obtain ⟨t1, h1, h⟩ := Option.bind_eq_some_iff.mp h
        obtain ⟨t2, h2, h⟩ := Option.bind_eq_some_iff.mp h
        obtain ⟨⟨key, t3⟩, h3, h⟩ := Option.bind_eq_some_iff.mp h
        obtain ⟨t4, h4, h⟩ := Option.bind_eq_some_iff.mp h
        obtain ⟨⟨value, t5⟩, h5, h⟩ := Option.bind_eq_some_iff.mp h
        obtain ⟨⟨rest, t6⟩, h6, h⟩ := Option.map_eq_some_iff.mp h
        cases h
        have hopen : expect '}' (p ++ u) = none ∧ (if first then some (p ++ u) else expect ',' (p ++ u)) = some (t1 ++ u) := by
          cases first with
          | true =>
            cases h1
            exact ⟨expect_append_ne h2 (by decide) u, rfl⟩
          | false => exact ⟨expect_append_ne h1 (by decide) u, expect_append h1 u⟩
        have hne : t5 ≠ [] := by
          rintro rfl
          cases fuel with
          | zero => cases h6
          | succ fuel => simp [readFields, expect, skip] at h6
        simp only [hopen, expect_append h2, readString_append h3 (show t2.length + 1 ≤ (t2 ++ u).length + 1 by simp),
          expect_append h4, readValue_append h5 (show fuel ≤ fuel' by omega) (.inl hne),
          readFields_append h6 (show fuel ≤ fuel' by omega), Option.bind_some, Option.map_some]
end

/-! ### What loads -/

theorem loads_dumps (v : Value) : loads v.dumps = some v := by
  have h := readValue_dumps v (t := []) (Nat.lt_succ_self _) (by simp [NoDigit])
  rw [List.append_nil] at h
  rw [loads, h]
  rfl

/-- An object cut short does not load. -/
theorem eq_of_loads_prefix {fields : Fields} {p : Text} {v : Value} (hp : p <+: (Value.obj fields).dumps)
    (h : loads p = some v) : p = (Value.obj fields).dumps := by
  obtain ⟨u, hu⟩ := hp
  obtain ⟨⟨w, r⟩, hread, h⟩ := Option.bind_eq_some_iff.mp h
  have hobj : ∃ fields', w = .obj fields' := by
    cases p with
    | nil => simp [readValue, skip] at hread
    | cons c p =>
      rw [Value.dumps, List.cons_append] at hu
      obtain ⟨rfl, -⟩ := List.cons.inj hu
      rw [readValue, skip_of_not_isSpace (by decide)] at hread
      obtain ⟨⟨fields', rest⟩, -, hread⟩ := Option.map_eq_some_iff.mp hread
      cases hread
      exact ⟨fields', rfl⟩
  have hlong := readValue_append hread (show p.length + 1 ≤ (p ++ u).length + 1 by simp) (.inr hobj) u
  have hwhole := readValue_dumps (.obj fields) (t := []) (Nat.lt_succ_self _) (by simp [NoDigit])
  rw [List.append_nil, ← hu, hlong, Option.some.injEq, Prod.mk.injEq] at hwhole
  rw [← hu, (List.append_eq_nil_iff.mp hwhole.2).2, List.append_nil]

/-- An object with the start of another one behind it does not load. -/
theorem eq_nil_of_loads_append {fields fields' : Fields} {p : Text} {v : Value}
    (hp : p <+: (Value.obj fields').dumps) (h : loads ((Value.obj fields).dumps ++ p) = some v) : p = [] := by
  cases p with
  | nil => rfl
  | cons c p =>
    obtain ⟨u, hu⟩ := hp
    rw [Value.dumps, List.cons_append] at hu
    obtain ⟨rfl, -⟩ := List.cons.inj hu
    have hlength : (Value.obj fields).dumps.length < ((Value.obj fields).dumps ++ '{' :: p).length + 1 := by
      rw [List.length_append]
      omega
    have hread := readValue_dumps (.obj fields) (t := '{' :: p) hlength (by simp [NoDigit])
    rw [loads, hread, Option.bind_some, skip_of_not_isSpace (by decide)] at h
    simp at h

/-! ### Objects as lists of fields -/

def Fields.ofList : List (Text × Value) → Fields
  | [] => .nil
  | (key, value) :: rest => .cons key value (ofList rest)

def Fields.toList : Fields → List (Text × Value)
  | .nil => []
  | .cons key value rest => (key, value) :: rest.toList

def Value.fields? : Value → Option (List (Text × Value))
  | .obj fields => some fields.toList
  | _ => none

def Value.num? : Value → Option ℕ
  | .num n => some n
  | _ => none

def Value.str? : Value → Option Text
  | .str s => some s
  | _ => none

def object (l : List (Text × Value)) : Value := .obj (.ofList l)

@[simp] theorem fields?_object (l : List (Text × Value)) : (object l).fields? = some l := by
  have h : ∀ l : List (Text × Value), (Fields.ofList l).toList = l := by
    intro l
    induction l with
    | nil => rfl
    | cons p l ih =>
      obtain ⟨key, value⟩ := p
      rw [Fields.ofList, Fields.toList, ih]
  exact congrArg some (h l)

/-! ### One line -/

theorem printable_of_mem_escape {c d : Char} (h : d ∈ escape c) : d ≠ '\n' := by
  have hdigit : ∀ n : ℕ, Nat.digitChar (n % 16) ≠ '\n' := by
    intro n
    have hall : ∀ m < 16, Nat.digitChar m ≠ '\n' := by decide
    exact hall _ (Nat.mod_lt _ (by decide))
  have hunicode : ∀ n, d ∈ unicode n → d ≠ '\n' := by
    intro n hd
    simp only [unicode, hex4, List.mem_cons, List.not_mem_nil, or_false] at hd
    rcases hd with rfl | rfl | rfl | rfl | rfl | rfl
    · decide
    · decide
    · exact hdigit _
    · exact hdigit _
    · exact hdigit _
    · exact hdigit n
  unfold escape at h
  cases hshort : short c with
  | some e =>
    have he : e ≠ '\n' := by
      unfold short at hshort
      split_ifs at hshort <;> cases hshort <;> decide
    simp only [hshort, List.mem_cons, List.not_mem_nil, or_false] at h
    rcases h with rfl | rfl
    · decide
    · exact he
  | none =>
    rw [hshort] at h
    simp only at h
    split_ifs at h with hplain
    · obtain rfl := List.mem_singleton.mp h
      rintro rfl
      exact absurd hplain.1 (by decide)
    · exact hunicode _ h
    · rcases List.mem_append.mp h with h | h
      · exact hunicode _ h
      · exact hunicode _ h

theorem newline_notMem_quote (s : Text) : '\n' ∉ quote s := by
  intro h
  rcases List.mem_cons.mp h with h | h
  · exact absurd h (by decide)
  · rcases List.mem_append.mp h with h | h
    · obtain ⟨c, -, hc⟩ := List.mem_flatMap.mp h
      exact printable_of_mem_escape hc rfl
    · exact absurd (List.mem_singleton.mp h) (by decide)

mutual
theorem newline_notMem_dumps (v : Value) : '\n' ∉ v.dumps := by
  intro h
  cases v with
  | num n => exact absurd (isDigit_of_mem_render h) (by decide)
  | str s => exact newline_notMem_quote s h
  | obj fields =>
    rw [Value.dumps] at h
    rcases List.mem_cons.mp h with h | h
    · exact absurd h (by decide)
    · exact newline_notMem_fields fields true h

theorem newline_notMem_fields (fields : Fields) (first : Bool) : '\n' ∉ fields.dumps first := by
  intro h
  cases fields with
  | nil => exact absurd h (by simp [Fields.dumps])
  | cons key value rest =>
    simp only [Fields.dumps, List.mem_append, List.mem_cons] at h
    rcases h with (((h | h) | h | h | h) | h)
    · cases first <;> simp at h
    · exact newline_notMem_quote key h
    · exact absurd h (by decide)
    · exact absurd h (by decide)
    · exact newline_notMem_dumps value h
    · exact newline_notMem_fields rest false h
end

end HarmonyMigration.Json
