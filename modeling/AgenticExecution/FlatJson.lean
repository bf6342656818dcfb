import AgenticExecution.Fleet

set_option autoImplicit false

/-! # JSON texts of flat dicts

A codec for the dicts the queue writes: `{"key": value, ...}` with texts and numbers as values, and UUIDs
whose digits spell the id. -/

namespace AgenticExecution

/-! ## Texts -/

/-- The characters of a string literal, with its closing quote. -/
def quoteRest : List Char → List Char
  | [] => ['"']
  | c :: cs => if c = '"' ∨ c = '\\' then '\\' :: c :: quoteRest cs else c :: quoteRest cs

/-- The string literal after its opening quote, and what follows it. -/
def readQuoted : List Char → Option (List Char × List Char)
  | [] => none
  | ['\\'] => none
  | '\\' :: c :: rest => (readQuoted rest).map fun p => (c :: p.1, p.2)
  | c :: rest => if c = '"' then some ([], rest) else (readQuoted rest).map fun p => (c :: p.1, p.2)

theorem readQuoted_quoteRest (cs rest : List Char) :
    readQuoted (quoteRest cs ++ rest) = some (cs, rest) := by
  induction cs with
  | nil => simp [quoteRest, readQuoted]
  | cons c cs ih =>
      rw [quoteRest]
      split
      · simp [readQuoted, ih]
      · next hplain =>
          have hquote : c ≠ '"' := fun heq => hplain (.inl heq)
          have hslash : c ≠ '\\' := fun heq => hplain (.inr heq)
          simp [readQuoted, ih, hquote, hslash]

/-! ## Values -/

/-- The text of a value that is no list or dict. -/
def Json.flatText : Json → List Char
  | .str s => '"' :: quoteRest s.toList
  | .int (.ofNat n) => Nat.toDigits 10 n
  | .int (.negSucc n) => '-' :: Nat.toDigits 10 (n + 1)
  | _ => []

/-- The numeral at the start of a text. -/
def readDigits (cs : List Char) : Nat × List Char :=
  (Nat.ofDigitChars 10 (cs.takeWhile Char.isDigit) 0, cs.dropWhile Char.isDigit)

/-- The value at the start of a text. -/
def readFlat : List Char → Option (Json × List Char)
  | '"' :: rest => (readQuoted rest).map fun p => (.str (String.ofList p.1), p.2)
  | '-' :: rest => some (.int (-(readDigits rest).1), (readDigits rest).2)
  | cs => some (.int (readDigits cs).1, (readDigits cs).2)

theorem readDigits_toDigits (n : Nat) {c : Char} (hc : c.isDigit = false) (rest : List Char) :
    readDigits (Nat.toDigits 10 n ++ c :: rest) = (n, c :: rest) := by
  have hdigits : ∀ d ∈ Nat.toDigits 10 n, d.isDigit = true :=
    fun d hd => Nat.isDigit_of_mem_toDigits (by decide) (by decide) hd
  rw [readDigits, List.takeWhile_append_of_pos hdigits, List.dropWhile_append_of_pos hdigits]
  simp [hc]

theorem readFlat_flatText {v : Json} (hv : v.isScalar = true) {c : Char} (hc : c.isDigit = false)
    (rest : List Char) : readFlat (v.flatText ++ c :: rest) = some (v, c :: rest) := by
  cases v with
  | str s => simp [Json.flatText, readFlat, readQuoted_quoteRest]
  | int n =>
      cases n with
      | negSucc n =>
          simp only [Json.flatText, List.cons_append, readFlat, readDigits_toDigits (n + 1) hc]
          rfl
      | ofNat n =>
          obtain ⟨d, ds, hds⟩ : ∃ d ds, Nat.toDigits 10 n = d :: ds :=
            List.exists_cons_of_ne_nil Nat.toDigits_ne_nil
          have hd : d.isDigit = true :=
            Nat.isDigit_of_mem_toDigits (n := n) (by decide) (by decide) (hds ▸ List.mem_cons_self)
          have hread := readDigits_toDigits n hc rest
          simp only [Json.flatText]
          rw [hds, List.cons_append] at hread ⊢
          unfold readFlat
          split
          · next heq => simp_all
          · next heq => simp_all
          · rw [hread]
            rfl
  | null | bool | float | arr | obj => simp [Json.isScalar] at hv

/-! ## Dicts -/

/-- The fields of a dict, with its closing brace. -/
def fieldsText : List (String × Json) → List Char
  | [] => ['}']
  | [p] => '"' :: quoteRest p.1.toList ++ ':' :: ' ' :: p.2.flatText ++ ['}']
  | p :: q :: fields =>
    '"' :: quoteRest p.1.toList ++ ':' :: ' ' :: p.2.flatText ++ ',' :: ' ' :: fieldsText (q :: fields)

/-- `json.dumps` of a flat dict. -/
def flatDumps : Json → String
  | .obj fields => String.ofList ('{' :: fieldsText fields)
  | _ => ""

/-- At most `n` fields and the closing brace. -/
def readFields : Nat → List Char → Option (List (String × Json))
  | _, ['}'] => some []
  | n + 1, '"' :: rest =>
    match readQuoted rest with
    | some (key, ':' :: ' ' :: rest) =>
      match readFlat rest with
      | some (value, ['}']) => some [(String.ofList key, value)]
      | some (value, ',' :: ' ' :: rest) =>
        (readFields n rest).map fun fields => (String.ofList key, value) :: fields
      | _ => none
    | _ => none
  | _, _ => none

/-- `json.loads` of a flat dict. -/
def flatLoads (text : String) : Option Json :=
  match text.toList with
  | '{' :: rest => (readFields rest.length rest).map .obj
  | _ => none

theorem length_fieldsText (fields : List (String × Json)) :
    fields.length ≤ (fieldsText fields).length := by
  fun_induction fieldsText fields with
  | case1 => simp
  | case2 p => simp
  | case3 p q fields ih =>
      simp only [List.length_cons, List.length_append] at ih ⊢
      omega

theorem readFields_fieldsText {fields : List (String × Json)}
    (hscalar : ∀ p ∈ fields, p.2.isScalar = true) {n : Nat} (hn : fields.length ≤ n) :
    readFields n (fieldsText fields) = some fields := by
  induction n generalizing fields with
  | zero =>
      obtain rfl := List.length_eq_zero_iff.1 (Nat.le_zero.1 hn)
      rfl
  | succ n ih =>
      match fields with
      | [] => rfl
      | [p] =>
          have hvalue := readFlat_flatText (hscalar p (by simp)) (c := '}') (by decide) []
          simp [fieldsText, readFields, readQuoted_quoteRest, hvalue]
      | p :: q :: fields =>
          have hvalue := readFlat_flatText (hscalar p (by simp)) (c := ',') (by decide)
            (' ' :: fieldsText (q :: fields))
          have hrest := ih (fun p (hp : p ∈ q :: fields) => hscalar p (List.mem_cons_of_mem _ hp))
            (by simpa using hn)
          simp [fieldsText, readFields, readQuoted_quoteRest, hvalue, hrest]

theorem flatLoads_flatDumps {fields : List (String × Json)}
    (hscalar : ∀ p ∈ fields, p.2.isScalar = true) :
    flatLoads (flatDumps (.obj fields)) = some (.obj fields) := by
  simp [flatLoads, flatDumps, readFields_fieldsText hscalar (length_fieldsText fields)]

theorem scalar_of_readFlat {cs rest : List Char} {v : Json} (h : readFlat cs = some (v, rest)) :
    v.isScalar = true := by
  unfold readFlat at h
  split at h
  · obtain ⟨p, -, hp⟩ := Option.map_eq_some_iff.1 h
    obtain ⟨rfl, -⟩ := Prod.mk.inj hp
    rfl
  · obtain ⟨rfl, -⟩ := Prod.mk.inj (Option.some.inj h)
    rfl
  · obtain ⟨rfl, -⟩ := Prod.mk.inj (Option.some.inj h)
    rfl

theorem scalar_of_readFields {n : Nat} {cs : List Char} {fields : List (String × Json)}
    (h : readFields n cs = some fields) : ∀ p ∈ fields, p.2.isScalar = true := by
  fun_induction readFields n cs generalizing fields with
  | case1 =>
      obtain rfl := Option.some.inj h
      exact List.forall_mem_nil _
  | case2 n rest key rest' _ value hvalue =>
      obtain rfl := Option.some.inj h
      exact List.forall_mem_singleton.2 (scalar_of_readFlat hvalue)
  | case3 n rest key rest' _ value rest'' hvalue ih =>
      obtain ⟨fields', hfields, rfl⟩ := Option.map_eq_some_iff.1 h
      exact List.forall_mem_cons.2 ⟨scalar_of_readFlat hvalue, ih hfields⟩
  | case4 => cases h
  | case5 => cases h
  | case6 => cases h

/-- What is loaded is a flat object. -/
theorem scalar_of_flatLoads {text : String} {v : Json} (h : flatLoads text = some v) :
    ∃ fields, v = .obj fields ∧ ∀ p ∈ fields, p.2.isScalar = true := by
  unfold flatLoads at h
  split at h
  · obtain ⟨fields, hfields, rfl⟩ := Option.map_eq_some_iff.1 h
    exact ⟨fields, rfl, scalar_of_readFields hfields⟩
  · cases h

/-! ## Identifiers -/

/-- The digits in front of the id. -/
def uuidPrefix : List Char := "00000000-0000-0000-0000-".toList

/-- The UUID whose last digits spell `id`. -/
def decimalUuid (id : Nat) : String :=
  let digits := Nat.toDigits 10 id
  String.ofList (uuidPrefix ++ (List.replicate (12 - digits.length) '0' ++ digits))

/-- The id such a UUID spells. -/
def readUuid (text : String) : Option Nat :=
  let digits := text.toList.drop uuidPrefix.length
  if text.toList.take uuidPrefix.length = uuidPrefix ∧ digits.length ≥ 12 ∧ digits.all Char.isDigit then
    some (Nat.ofDigitChars 10 digits 0)
  else none

theorem readUuid_decimalUuid (id : Nat) : readUuid (decimalUuid id) = some id := by
  have hdigits : ∀ c ∈ Nat.toDigits 10 id, c.isDigit = true :=
    fun c hc => Nat.isDigit_of_mem_toDigits (by decide) (by decide) hc
  have hzero : ∀ c ∈ List.replicate (12 - (Nat.toDigits 10 id).length) '0', c.isDigit = true := by
    intro c hc
    rw [List.eq_of_mem_replicate hc]
    decide
  simp only [readUuid, decimalUuid, String.toList_ofList, List.drop_left, List.take_left]
  rw [if_pos]
  · simp [Nat.ofDigitChars_append]
  · refine ⟨trivial, ?_, ?_⟩
    · simp only [List.length_append, List.length_replicate]
      omega
    · rw [List.all_append, Bool.and_eq_true, List.all_eq_true, List.all_eq_true]
      exact ⟨hzero, hdigits⟩

/-! ## The codec -/

/-- `json.loads` reads flat dicts only. -/
def flatPython : Python where
  loads := flatLoads
  repr _ := ""

/-- The codec of the flat dicts. -/
def flatCodec : Codec flatPython where
  dumps := flatDumps
  uuidStr := decimalUuid
  uuid := readUuid
  isoformat _ := "1970-01-01T00:00:00+00:00"
  loads_dumps _ _ hscalar := flatLoads_flatDumps hscalar
  uuid_uuidStr := readUuid_decimalUuid
  uuidStr_ne id := by
    intro hempty
    have hread := readUuid_decimalUuid id
    have hnone : readUuid "" = none := by decide
    rw [hempty, hnone] at hread
    cases hread

/-- The settings beside that `json.loads`. -/
def flatConfig (settings : Settings) : Config where
  settings := settings
  python := flatPython

/-- `n` turns of thread `t`. -/
def turns (t n : Nat) (o : Oracle) : List FleetEvent := List.replicate n (.turn t o)

end AgenticExecution
