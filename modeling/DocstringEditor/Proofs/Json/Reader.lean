import DocstringEditor.Json.Reader
import DocstringEditor.Proofs.Outcome

namespace DocstringEditor.Json

def Follows (rest : Text) : Prop := ∀ c ∈ rest.head?, c = ',' ∨ c = ']' ∨ c = '}'

theorem follows_comma (rest : Text) : Follows (',' :: rest) := by simp [Follows]

theorem follows_bracket (rest : Text) : Follows (']' :: rest) := by simp [Follows]

theorem follows_brace (rest : Text) : Follows ('}' :: rest) := by simp [Follows]

/-- Whether a reader takes the text of a value off what it stands in front of. -/
def Reader.Takes (read : Reader Json) (v : Json) : Prop :=
  ∀ rest, Follows rest → read (v.text ++ rest) = .ok (v, rest)

/-- Whether a value can be read with so many arrays and objects inside each other: its numbers are
words. -/
inductive Fits : Nat → Json → Prop
  | null (d : Nat) : Fits d null
  | bool (d : Nat) (b : Bool) : Fits d (bool b)
  | natural (d : Nat) {n : Nat} (h : n < UInt32.size) : Fits d (natural n)
  | string (d : Nat) (t : Text) : Fits d (string t)
  | array {d : Nat} {items : List Json} (h : ∀ v ∈ items, Fits d v) : Fits (d + 1) (array items)
  | object {d : Nat} {fields : List (String × Json)} (h : ∀ f ∈ fields, Fits d f.2) :
      Fits (d + 1) (object fields)

theorem hexValue?_digitChar : ∀ d < 16, Text.hexValue? d.digitChar = some d := by decide

theorem unit?_control {n : Nat} (h : n < 0x20) :
    unit? '0' '0' (n / 16).digitChar (n % 16).digitChar = some n := by
  have hhigh := hexValue?_digitChar (n / 16) (by omega)
  have hlow := hexValue?_digitChar (n % 16) (by omega)
  have hzero : Text.hexValue? '0' = some 0 := rfl
  simp only [unit?, hzero, hhigh, hlow, Option.bind_eq_bind, Option.bind_some, Option.pure_def]
  exact congrArg some (by omega)

theorem chars_escape (c : Char) (t : Text) :
    chars (escape c ++ t) = (chars t).map fun (s, t) => (c :: s, t) := by
  unfold escape
  split
  -- Escapes of one letter compute; what is left is written as a number or as itself.
  all_goals try rfl
  rename_i hquote hbackslash _ _ _ _ _
  split
  · next hcontrol =>
      have hlow : c.toNat < 0xD800 ∨ 0xE000 ≤ c.toNat := .inl (by omega)
      simp only [List.cons_append, List.nil_append, chars, unit?_control hcontrol, if_pos hlow,
        Char.ofNat_toNat]
  · next hprintable =>
      have hplain : ¬(c.toNat < 0x20 ∨ c = '\\') := not_or.2 ⟨hprintable, hbackslash⟩
      rw [List.singleton_append, chars, if_neg hplain]
      all_goals grind

theorem chars_quoted (t rest : Text) : chars (t.flatMap escape ++ '"' :: rest) = .ok (t, rest) := by
  induction t with
  | nil => rfl
  | cons c t ih =>
      rw [List.flatMap_cons, List.append_assoc, chars_escape, ih]
      rfl

variable {n : Nat} {rest : Text}

theorem not_isDigit_of_follows (h : Follows rest) : ∀ c ∈ rest.head?, c.isDigit = false := by
  intro c hc
  rcases h c hc with rfl | rfl | rfl <;> rfl

theorem digits_append {ds : Text} (hne : ds ≠ []) (hds : ∀ c ∈ ds, c.isDigit = true)
    (h : Follows rest) : digits (ds ++ rest) = .ok (ds, rest) := by
  have htake : rest.takeWhile Char.isDigit = [] := by
    cases rest with
    | nil => rfl
    | cons c rest => simp [not_isDigit_of_follows h c rfl]
  have hdrop : rest.dropWhile Char.isDigit = rest := by
    cases rest with
    | nil => rfl
    | cons c rest => simp [not_isDigit_of_follows h c rfl]
  rw [digits, List.takeWhile_append_of_pos hds, List.dropWhile_append_of_pos hds, htake, hdrop,
    List.append_nil]
  cases ds with
  | nil => exact absurd rfl hne
  | cons c ds => rfl

theorem toDigits_head?_append (n : Nat) (t : Text) :
    (Nat.toDigits 10 n ++ t).head? = (Nat.toDigits 10 n).head? := by
  cases h : Nat.toDigits 10 n with
  | nil => exact absurd h Nat.toDigits_ne_nil
  | cons c ds => rfl

/-- Only zero itself is written with a zero in front. -/
theorem toDigits_head? (h : (Nat.toDigits 10 n).head? = some '0') : n = 0 := by
  induction n using Nat.strongRecOn with
  | _ n ih =>
      by_cases hn : n < 10
      · rw [Nat.toDigits_of_lt_base hn] at h
        have hdigit : ∀ m < 10, m.digitChar = '0' → m = 0 := by decide
        exact hdigit n hn (Option.some.inj h)
      · rw [Nat.toDigits_of_base_le (by decide) (Nat.le_of_not_lt hn),
          toDigits_head?_append] at h
        have hzero := ih (n / 10) (by omega) h
        omega

theorem whole_toDigits (h : Follows rest) :
    whole (Nat.toDigits 10 n ++ rest) = .ok (Nat.toDigits 10 n, rest) := by
  have hdigits := digits_append (Nat.toDigits_ne_nil (b := 10) (n := n))
    (fun c hc => Nat.isDigit_of_mem_toDigits (by decide) (by decide) hc) h
  have hzero : ¬((Nat.toDigits 10 n).head? = some '0' ∧ Nat.toDigits 10 n ≠ ['0']) := by
    rintro ⟨hhead, hne⟩
    obtain rfl := toDigits_head? hhead
    exact hne rfl
  rw [whole, hdigits, ok_bind]
  exact if_neg hzero

theorem fraction_of_follows (h : Follows rest) : fraction rest = .ok (none, rest) := by
  unfold fraction
  split
  · exact absurd (h '.' rfl) (by decide)
  · rfl

theorem exponent_of_follows (h : Follows rest) : exponent rest = .ok (none, rest) := by
  cases rest with
  | nil => rfl
  | cons c rest =>
      have hc : ¬(c = 'e' ∨ c = 'E') := by
        rcases h c rfl with rfl | rfl | rfl <;> decide
      unfold exponent
      exact if_neg hc

theorem digitsValue_toDigits (n : Nat) : Text.digitsValue (Nat.toDigits 10 n) = n := by
  rw [Text.digitsValue, ← Nat.ofDigitChars_eq_foldl, Nat.ofDigitChars_ten_toDigits]

theorem isFinite_of_length {ds : Text} (h : ds.length < 309) : Text.isFinite ds 0 = true := by
  have hle := (List.dropWhile_sublist (l := ds) (· = '0')).length_le
  have hmagnitude : ((ds.dropWhile (· = '0')).length : Int) + 0 < 309 := by omega
  rw [Text.isFinite]
  exact if_pos (.inr hmagnitude)

theorem number_toDigits (hn : n < UInt32.size) (h : Follows rest) :
    number (Nat.toDigits 10 n ++ rest) = .ok (natural n, rest) := by
  have hlength : (Nat.toDigits 10 n).length ≤ 10 :=
    (Nat.length_toDigits_le_iff (by decide) (by decide)).2 (Nat.lt_trans hn (by decide))
  have hfinite := isFinite_of_length (Nat.lt_of_le_of_lt hlength (by decide : 10 < 309))
  have hsign : ((Nat.toDigits 10 n ++ rest).head? = some '-') = False := by
    rw [toDigits_head?_append, eq_iff_iff, iff_false]
    intro hhead
    have hdigit := Nat.isDigit_of_mem_toDigits (by decide) (by decide) (List.mem_of_mem_head? hhead)
    exact absurd hdigit (by decide)
  simp only [number, hsign, decide_false, if_false, whole_toDigits h, ok_bind,
    fraction_of_follows h, exponent_of_follows h]
  simp [hfinite, digitsValue_toDigits]

variable {d : Nat} {v : Json} {vs : List Json} {fs : List (String × Json)} {item : Reader Json}
  {value : List String → String → Except ReadError (Reader Json)} {seen : List String}

def fieldText (f : String × Json) : Text := quoted f.1.toList ++ ':' :: f.2.text

theorem comma_itemsText (v : Json) (vs : List Json) :
    ',' :: itemsText (v :: vs) = (v :: vs).flatMap fun w => ',' :: w.text := by
  induction vs generalizing v with
  | nil => simp [itemsText]
  | cons w vs ih => rw [itemsText, ih, List.flatMap_cons]; rfl

theorem comma_fieldsText (f : String × Json) (fs : List (String × Json)) :
    ',' :: fieldsText (f :: fs) = (f :: fs).flatMap fun g => ',' :: fieldText g := by
  induction fs generalizing f with
  | nil => simp [fieldsText, fieldText]
  | cons g fs ih =>
      rw [fieldsText, ih, List.flatMap_cons]
      simp [fieldText]

theorem length_le_flatMap_cons {α : Type} (c : Char) (f : α → Text) (l : List α) :
    l.length ≤ (l.flatMap fun a => c :: f a).length := by
  induction l with
  | nil => exact Nat.zero_le _
  | cons a l ih =>
      rw [List.flatMap_cons, List.length_append, List.length_cons, List.length_cons]
      omega

theorem follows_flatMap {α : Type} (f : α → Text) (l : List α) (h : Follows rest) :
    Follows ((l.flatMap fun a => ',' :: f a) ++ rest) := by
  cases l with
  | nil => exact h
  | cons a l => exact follows_comma _

theorem isSpace_of_isDigit {c : Char} (h : c.isDigit = true) : isSpace c = false := by
  rw [Bool.eq_false_iff]
  intro hspace
  simp only [isSpace, Bool.or_eq_true, decide_eq_true_eq] at hspace
  rcases hspace with ((rfl | rfl) | rfl) | rfl <;> exact absurd h (by decide)

theorem text_eq_cons (h : v.Fits d) :
    ∃ c t, v.text = c :: t ∧ isSpace c = false ∧ c ≠ ']' := by
  cases h with
  | null => exact ⟨'n', _, rfl, by decide⟩
  | bool d b => cases b with
    | false => exact ⟨'f', _, rfl, by decide⟩
    | true => exact ⟨'t', _, rfl, by decide⟩
  | @natural d n h =>
      obtain ⟨c, ds, hds⟩ := List.exists_cons_of_ne_nil (Nat.toDigits_ne_nil (b := 10) (n := n))
      have hdigit := Nat.isDigit_of_mem_toDigits (by decide) (by decide)
        (hds ▸ List.mem_cons_self : c ∈ Nat.toDigits 10 n)
      refine ⟨c, ds, hds, isSpace_of_isDigit hdigit, ?_⟩
      rintro rfl
      exact absurd hdigit (by decide)
  | string d t => exact ⟨'"', _, rfl, by decide⟩
  | array h => exact ⟨'[', _, rfl, by decide⟩
  | object h => exact ⟨'{', _, rfl, by decide⟩

theorem items_tail (h : ∀ v ∈ vs, item.Takes v) (hn : vs.length < n) :
    items item n false ((vs.flatMap fun v => ',' :: v.text) ++ ']' :: rest) = .ok (vs, rest) := by
  induction vs generalizing n with
  | nil =>
      obtain ⟨n, rfl⟩ := Nat.exists_eq_add_of_lt hn
      simp [items, skipSpace, isSpace]
  | cons v vs ih =>
      obtain ⟨n, rfl⟩ : ∃ m, n = m + 1 := ⟨n - 1, by omega⟩
      have hv := h v List.mem_cons_self _ (follows_flatMap text vs (follows_bracket rest))
      have hvs := ih (fun w hw => h w (List.mem_cons_of_mem v hw)) (Nat.lt_of_succ_lt_succ hn)
      simp [items, skipSpace, isSpace, hv, hvs]

theorem items_first {c : Char} (hspace : isSpace c = false) (hbracket : c ≠ ']') (t : Text) :
    items item n true (c :: t) = items item n false (',' :: c :: t) := by
  cases n with
  | zero => rfl
  | succ n => simp [items, skipSpace, hspace, show isSpace ',' = false from rfl]

theorem items_text (hfits : ∀ v ∈ vs, v.Fits d) (h : ∀ v ∈ vs, item.Takes v)
    (hn : vs.length < n) :
    items item n true (itemsText vs ++ ']' :: rest) = .ok (vs, rest) := by
  rw [← items_tail h hn]
  cases vs with
  | nil =>
      obtain ⟨n, rfl⟩ := Nat.exists_eq_add_of_lt hn
      rfl
  | cons v vs =>
      obtain ⟨c, t, hc, hspace, hbracket⟩ := text_eq_cons (hfits v List.mem_cons_self)
      have hfirst : ∃ u, itemsText (v :: vs) = c :: u := by
        cases vs <;> simp [itemsText, hc]
      obtain ⟨u, hu⟩ := hfirst
      rw [← comma_itemsText, hu]
      exact items_first hspace hbracket _

def TakesFields (value : List String → String → Except ReadError (Reader Json)) :
    List String → List (String × Json) → Prop
  | _, [] => True
  | seen, (name, v) :: fs =>
    (∃ read, value seen name = .ok read ∧ read.Takes v) ∧ TakesFields value (name :: seen) fs

theorem fieldName_fieldText (f : String × Json) (t : Text) :
    fieldName (fieldText f ++ t) = .ok (f.1, ':' :: (f.2.text ++ t)) := by
  have hchars := chars_quoted f.1.toList (':' :: (f.2.text ++ t))
  simp [fieldName, fieldText, quoted, skipSpace, isSpace, hchars, Except.map]

theorem fields_tail (h : TakesFields value seen fs) (hn : fs.length < n) :
    fields value n false seen ((fs.flatMap fun f => ',' :: fieldText f) ++ '}' :: rest) =
      .ok (fs, rest) := by
  induction fs generalizing n seen with
  | nil =>
      obtain ⟨n, rfl⟩ := Nat.exists_eq_add_of_lt hn
      simp [fields, skipSpace, isSpace]
  | cons f fs ih =>
      obtain ⟨n, rfl⟩ : ∃ m, n = m + 1 := ⟨n - 1, by omega⟩
      obtain ⟨⟨read, hread, htakes⟩, hfields⟩ := h
      have hv := htakes _ (follows_flatMap fieldText fs (follows_brace rest))
      have hfs := ih hfields (Nat.lt_of_succ_lt_succ hn)
      simp [fields, skipSpace, isSpace, fieldName_fieldText, hread, colon, hv, hfs]

theorem fields_first (t : Text) :
    fields value n true seen ('"' :: t) = fields value n false seen (',' :: '"' :: t) := by
  cases n with
  | zero => rfl
  | succ n => simp [fields, skipSpace, isSpace]

theorem fields_text (h : TakesFields value seen fs) (hn : fs.length < n) :
    fields value n true seen (fieldsText fs ++ '}' :: rest) = .ok (fs, rest) := by
  rw [← fields_tail h hn]
  cases fs with
  | nil =>
      obtain ⟨n, rfl⟩ := Nat.exists_eq_add_of_lt hn
      rfl
  | cons f fs =>
      have hfirst : ∃ u, fieldsText (f :: fs) = '"' :: u := by
        cases fs <;> simp [fieldsText, quoted]
      obtain ⟨u, hu⟩ := hfirst
      rw [← comma_fieldsText, hu]
      exact fields_first _

theorem value_of_isDigit {c : Char} (h : c.isDigit = true) (t : Text) :
    Json.value d (c :: t) = number (c :: t) := by
  have hskip : skipSpace (c :: t) = c :: t := by simp [skipSpace, isSpace_of_isDigit h]
  unfold Json.value
  rw [hskip]
  split
  all_goals
    first
    | rfl
    | next heq =>
        obtain rfl := (List.cons.inj heq).1
        exact absurd h (by decide)

theorem value_bracket (t : Text) :
    Json.value (d + 1) ('[' :: t) =
      (items (Json.value d) (t.length + 1) true t).map fun (vs, t) => (array vs, t) := by
  unfold Json.value
  rfl

theorem value_brace (t : Text) :
    Json.value (d + 1) ('{' :: t) =
      (fields (fun _ _ => .ok (Json.value d)) (t.length + 1) true [] t).map fun (fs, t) =>
        (object fs, t) := by
  unfold Json.value
  rfl

theorem length_lt_itemsText (vs : List Json) (rest : Text) :
    vs.length < (itemsText vs ++ ']' :: rest).length + 1 := by
  rw [List.length_append, List.length_cons]
  cases vs with
  | nil => exact Nat.succ_pos _
  | cons v vs =>
      have hcomma := length_le_flatMap_cons ',' text (v :: vs)
      rw [← comma_itemsText, List.length_cons] at hcomma
      rw [List.length_cons] at hcomma ⊢
      omega

theorem length_lt_fieldsText (fs : List (String × Json)) (rest : Text) :
    fs.length < (fieldsText fs ++ '}' :: rest).length + 1 := by
  rw [List.length_append, List.length_cons]
  cases fs with
  | nil => exact Nat.succ_pos _
  | cons f fs =>
      have hcomma := length_le_flatMap_cons ',' fieldText (f :: fs)
      rw [← comma_fieldsText, List.length_cons] at hcomma
      rw [List.length_cons] at hcomma ⊢
      omega

theorem takesFields_of_forall {read : Reader Json} (h : ∀ f ∈ fs, read.Takes f.2) :
    TakesFields (fun _ _ => .ok read) seen fs := by
  induction fs generalizing seen with
  | nil => trivial
  | cons f fs ih =>
      exact ⟨⟨read, rfl, h f List.mem_cons_self⟩, ih fun g hg => h g (List.mem_cons_of_mem f hg)⟩

theorem value_takes (h : v.Fits d) : (Json.value d).Takes v := by
  induction h with
  | null d => intro rest _; unfold Json.value; rfl
  | bool d b => intro rest _; cases b <;> unfold Json.value <;> rfl
  | @natural d n hn =>
      intro rest hrest
      obtain ⟨c, ds, hds⟩ := List.exists_cons_of_ne_nil (Nat.toDigits_ne_nil (b := 10) (n := n))
      have hdigit := Nat.isDigit_of_mem_toDigits (by decide) (by decide)
        (hds ▸ List.mem_cons_self : c ∈ Nat.toDigits 10 n)
      have hnumber := number_toDigits hn hrest
      rw [hds, List.cons_append] at hnumber
      rw [text, hds, List.cons_append, value_of_isDigit hdigit, hnumber]
  | string d t =>
      intro rest _
      have hchars := chars_quoted t rest
      unfold Json.value
      simp [text, quoted, skipSpace, isSpace, hchars, Except.map]
  | @array d vs hfits ih =>
      intro rest _
      rw [text, List.cons_append, List.append_assoc, List.singleton_append, value_bracket,
        items_text hfits ih (length_lt_itemsText vs rest)]
      rfl
  | @object d fs hfits ih =>
      intro rest _
      rw [text, List.cons_append, List.append_assoc, List.singleton_append, value_brace,
        fields_text (takesFields_of_forall ih) (length_lt_fieldsText fs rest)]
      rfl

end DocstringEditor.Json
