import IoTFS.Files.Conversions
import IoTFS.Files.RoundTrip

/-!
# Which texts a write takes

The token of a write is converted to the type of each attribute. Integers are taken from
exactly the signed decimal numerals of a machine word and Booleans from the two words in any
case of their letters, so the PUT that follows says what was written, or there is none.
-/

namespace IoTFS.Oic

variable {ι : Type}

/-! ### Digits -/

/-- The text is a nonempty run of decimal digits of value `n`. -/
def Digits (s : Str) (n : Nat) : Prop :=
  s ≠ [] ∧ (∀ c ∈ s, c.isDigit = true) ∧ Nat.ofDigitChars 10 s 0 = n

theorem digits_decimal (n : Nat) : Digits (decimal n) n :=
  ⟨Nat.toDigits_ne_nil, fun _ hc => isDigit_of_mem_decimal hc, Nat.ofDigitChars_ten_toDigits⟩

theorem isDigit_of_digit {c : Char} {d : Nat} (h : digit c = some d) : c.isDigit = true := by
  unfold digit at h
  split at h
  · rename_i hrange
    simp only [Char.isDigit, Bool.and_eq_true, decide_eq_true_eq]
    exact hrange
  · cases h

/-- Only digits are accumulated. -/
theorem isDigit_of_readDigits {m n : Nat} {s : Str} (h : readDigits m s = some n) :
    ∀ c ∈ s, c.isDigit = true := by
  induction s generalizing m with
  | nil => exact List.forall_mem_nil _
  | cons c s ih =>
    obtain ⟨d, hd, hrest⟩ := Option.bind_eq_some_iff.mp h
    exact List.forall_mem_cons.mpr ⟨isDigit_of_digit hd, ih hrest⟩

/-- A run of digits is read as its value, and nothing else is read. -/
theorem readDecimal_eq_some_iff {s : Str} {n : Nat} : readDecimal s = some n ↔ Digits s n := by
  unfold readDecimal
  split
  · rename_i hnil
    exact iff_of_false (by simp) fun h => h.1 hnil
  · rename_i hne
    constructor
    · intro h
      have hdigits := isDigit_of_readDigits h
      rw [readDigits_eq_ofDigitChars 0 s hdigits] at h
      exact ⟨hne, hdigits, Option.some.inj h⟩
    · rintro ⟨-, hdigits, rfl⟩
      exact readDigits_eq_ofDigitChars 0 s hdigits

/-! ### Signs -/

/-- The signs of a numeral. -/
inductive Sign : Str → Bool → Prop
  | none : Sign [] false
  | plus : Sign ['+'] false
  | minus : Sign ['-'] true

/-- Whether a text begins with a minus, and what follows its sign. -/
def splitSign : Str → Bool × Str
  | '-' :: ds => (true, ds)
  | '+' :: ds => (false, ds)
  | ds => (false, ds)

/-- What is split off is a sign. -/
theorem sign_splitSign (s : Str) :
    ∃ sign, Sign sign (splitSign s).1 ∧ s = sign ++ (splitSign s).2 := by
  unfold splitSign
  split
  · exact ⟨_, .minus, rfl⟩
  · exact ⟨_, .plus, rfl⟩
  · exact ⟨_, .none, rfl⟩

/-- A sign is split off from digits. -/
theorem splitSign_signed {sign ds : Str} {negative : Bool} {n : Nat} (h : Sign sign negative)
    (hds : Digits ds n) (post : Str) :
    splitSign (sign ++ (ds ++ post)) = (negative, ds ++ post) := by
  cases h with
  | plus | minus => rfl
  | none =>
    obtain ⟨c, cs, rfl⟩ := List.exists_cons_of_ne_nil hds.1
    have hc := hds.2.1 c (List.mem_cons_self ..)
    rw [List.nil_append, List.cons_append]
    unfold splitSign
    split
    · rename_i hcons
      cases hcons
      exact absurd hc (by decide)
    · rename_i hcons
      cases hcons
      exact absurd hc (by decide)
    · rfl

/-! ### Conversions -/

theorem lexicalCastInt_eq (s : Str) : lexicalCastInt s =
    (readDecimal (splitSign s).2).bind fun n =>
      narrowInt (if (splitSign s).1 then -(n : Int) else n) := by
  unfold lexicalCastInt
  split
  · rfl
  · rfl
  · rename_i hminus hplus
    rw [splitSign.eq_3 s hminus hplus]
    rfl

theorem narrowInt_eq_some_iff {i : Int} {v : Int32} : narrowInt i = some v ↔ v.toInt = i := by
  constructor
  · intro h
    unfold narrowInt at h
    split at h
    · rename_i hrange
      cases h
      exact Int32.toInt_ofInt_of_le hrange.1 hrange.2
    · cases h
  · rintro rfl
    exact narrowInt_toInt v

/-- An integer is made of exactly the signed numerals of its value. -/
theorem lexicalCastInt_eq_some_iff {s : Str} {v : Int32} : lexicalCastInt s = some v ↔
    ∃ sign negative ds n, s = sign ++ ds ∧ Sign sign negative ∧ Digits ds n ∧
      v.toInt = if negative then -(n : Int) else n := by
  rw [lexicalCastInt_eq, Option.bind_eq_some_iff]
  simp only [readDecimal_eq_some_iff, narrowInt_eq_some_iff]
  constructor
  · rintro ⟨n, hdigits, hv⟩
    obtain ⟨sign, hsign, hs⟩ := sign_splitSign s
    exact ⟨sign, _, _, n, hs, hsign, hdigits, hv⟩
  · rintro ⟨sign, negative, ds, n, rfl, hsign, hdigits, hv⟩
    have hsplit := splitSign_signed hsign hdigits []
    rw [List.append_nil] at hsplit
    rw [hsplit]
    exact ⟨n, hdigits, hv⟩

/-- A Boolean is made of the text it prints as, in any case of the letters. -/
theorem lexicalCastBool_eq_some_iff {s : Str} {b : Bool} : lexicalCastBool s = some b ↔
    s.map Char.toLower = (AttributeValue.boolean b).getValueToString := by
  have htrue : ['t', 'r', 'u', 'e'].map Char.toLower =
      (AttributeValue.boolean true).getValueToString := by decide
  have hfalse : ['f', 'a', 'l', 's', 'e'].map Char.toLower =
      (AttributeValue.boolean false).getValueToString := by decide
  have hne : (AttributeValue.boolean true).getValueToString ≠
      (AttributeValue.boolean false).getValueToString := by decide
  simp only [lexicalCastBool, iequals, htrue, hfalse, decide_eq_true_eq]
  split
  · rename_i h
    cases b with
    | true => exact iff_of_true rfl h
    | false => exact iff_of_false (by simp) fun h' => hne (h.symm.trans h')
  · rename_i h
    split
    · rename_i h'
      cases b with
      | true => exact iff_of_false (by simp) h
      | false => exact iff_of_true rfl h'
    · rename_i h'
      refine iff_of_false (by simp) ?_
      cases b with
      | true => exact h
      | false => exact h'

/-- What a text says in a type. -/
inductive Says : AttributeType → Str → AttributeValue → Prop
  | integer {sign ds : Str} {negative : Bool} {n : Nat} {v : Int32} : Sign sign negative →
      Digits ds n → (v.toInt = if negative then -(n : Int) else n) →
      Says .integer (sign ++ ds) (.integer v)
  | string (s : Str) : Says .string s (.string s)
  | boolean {s : Str} {b : Bool} :
      s.map Char.toLower = (AttributeValue.boolean b).getValueToString →
      Says .boolean s (.boolean b)

/-- A content converts to what it says. -/
theorem converted_eq_some_iff {d : OICFileDescriptor} {v : AttributeValue} :
    d.converted = some v ↔ Says d.type d.content v := by
  obtain ⟨content, type⟩ := d
  cases type with
  | integer =>
    simp only [OICFileDescriptor.converted, Option.map_eq_some_iff, lexicalCastInt_eq_some_iff]
    constructor
    · rintro ⟨v, ⟨sign, negative, ds, n, rfl, hsign, hdigits, hv⟩, rfl⟩
      exact .integer hsign hdigits hv
    · intro h
      cases h with
      | integer hsign hdigits hv => exact ⟨_, ⟨_, _, _, _, rfl, hsign, hdigits, hv⟩, rfl⟩
  | string =>
    simp only [OICFileDescriptor.converted, Option.some.injEq]
    constructor
    · rintro rfl
      exact .string content
    · rintro ⟨⟩
      rfl
  | boolean =>
    simp only [OICFileDescriptor.converted, Option.map_eq_some_iff, lexicalCastBool_eq_some_iff]
    constructor
    · rintro ⟨b, hb, rfl⟩
      exact .boolean hb
    · intro h
      cases h with
      | boolean hb => exact ⟨_, hb, rfl⟩
  | other tag => exact iff_of_false (by simp [OICFileDescriptor.converted]) (by rintro ⟨⟩)

/-! ### Writes -/

/-- A text converts if it says something in its type, where the type is encoded. -/
theorem converts_iff_says {d : OICFileDescriptor} :
    d.Converts ↔ (d.type.encoded = true → ∃ v, Says d.type d.content v) := by
  have hisSome := d.converted_isSome
  simp only [Option.isSome_iff_exists, converted_eq_some_iff] at hisSome
  cases henc : d.type.encoded with
  | true =>
    rw [hisSome, and_iff_right henc]
    exact ⟨fun h _ => h, fun h => h rfl⟩
  | false =>
    refine iff_of_true ?_ fun h => by cases h
    cases htype : d.type with
    | other => simp [OICFileDescriptor.Converts, htype]
    | integer | string | boolean =>
      rw [htype] at henc
      cases henc

/-- What the PUT of a write has. -/
theorem mem_encode_setContents {values : OICFileAttributes} {text : Str} {rep : OCRepresentation}
    (h : encode (values.setContents text) = some rep) (name : Str) (v : AttributeValue) :
    (name, v) ∈ rep.items ↔ ∃ type, (name, type) ∈ values.types ∧ Says type text v := by
  simp only [mem_encode h, converted_eq_some_iff]
  constructor
  · rintro ⟨d, hd, hsays⟩
    obtain ⟨⟨n, d'⟩, hd', he⟩ := List.mem_map.mp hd
    cases he
    exact ⟨_, OICFileAttributes.mem_types.mpr ⟨d', hd', rfl⟩, hsays⟩
  · rintro ⟨type, htype, hsays⟩
    obtain ⟨d, hd, rfl⟩ := OICFileAttributes.mem_types.mp htype
    exact ⟨_, OICFileAttributes.mem_refill hd, hsays⟩

/-- A permitted write on a bound file sends a PUT exactly if its token says something in the
type of every attribute that is encoded, and throws if not. The PUT then has exactly what
the token says, each attribute in its own type. -/
theorem write_puts_iff (f : OICFile ι) (hb : f.stub.isSome = true) (hw : f.mayWrite = true)
    (input : Str) (answer : Reply) :
    ((∃ rep, (f.write input answer).sent = [.put rep]) ↔
        ∀ t ∈ f.values.types, t.2.encoded = true → ∃ v, Says t.2 (token input) v) ∧
      ((f.write input answer).ret = none ↔
        ¬ ∀ t ∈ f.values.types, t.2.encoded = true → ∃ v, Says t.2 (token input) v) ∧
      ∀ rep, (f.write input answer).sent = [.put rep] → ∀ name v,
        (name, v) ∈ rep.items ↔
          ∃ type, (name, type) ∈ f.values.types ∧ Says type (token input) v := by
  have hconvertible : Convertible f.values (token input) ↔
      ∀ t ∈ f.values.types, t.2.encoded = true → ∃ v, Says t.2 (token input) v := by
    simp only [convertible_iff_types, converts_iff_says]
  refine ⟨?_, ?_, fun rep hsent name v => ?_⟩
  · simp only [f.write_sends_iff hb hw, ← hconvertible, ← encode_setContents_isSome,
      Option.isSome_iff_exists]
  · rw [← hconvertible]
    refine (perform_throws_iff f (.write input answer)).trans ⟨?_, fun h => ?_⟩
    · rintro ⟨-, -, input', answer', hop, hno⟩
      cases hop
      exact hno
    · exact ⟨hb, hw, input, answer, rfl, h⟩
  · exact mem_encode_setContents ((f.write_sends_iff hb hw input answer rep).mp hsent) name v

/-- Of a line only the first word counts, and leading zeros and a plus do not. -/
theorem write_puts_iff_sampleFile :
    ∃ rep, ((sampleFile 3 .integer ['0']).write "\t+0042 or so\n".toList
      ⟨OC_STACK_OK, .empty⟩).sent = [.put rep] ∧ (['p'], .integer 42) ∈ rep.items := by
  have hsays : Says .integer (['+'] ++ ['0', '0', '4', '2']) (.integer 42) :=
    .integer (n := 42) .plus (readDecimal_eq_some_iff.mp (by decide)) (by decide)
  have htoken : token "\t+0042 or so\n".toList = ['+'] ++ ['0', '0', '4', '2'] := by
    decide +kernel
  have hputs := write_puts_iff (sampleFile 3 .integer ['0']) rfl (by decide)
    "\t+0042 or so\n".toList ⟨OC_STACK_OK, .empty⟩
  rw [htoken] at hputs
  have htypes : (sampleFile 3 .integer ['0']).values.types = [(['p'], .integer)] := by decide
  obtain ⟨rep, hsent⟩ := hputs.1.mpr fun t ht _ => by
    rw [htypes, List.mem_singleton] at ht
    rw [ht]
    exact ⟨_, hsays⟩
  exact ⟨rep, hsent, (hputs.2.2 rep hsent _ _).mpr
    ⟨_, htypes ▸ List.mem_singleton_self _, hsays⟩⟩

end IoTFS.Oic
