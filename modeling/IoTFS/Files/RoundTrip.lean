import IoTFS.Files.LatestType
import Mathlib.Data.List.TakeWhile

/-!
# Writing back what was read

A read prints values one way and a write takes the first token of its input and converts it
another way. The two undo each other on integers, booleans and texts without white space;
any other text comes back as its first word.
-/

namespace IoTFS.Oic

variable {ι : Type}

/-! ### Tokens -/

/-- No character of the text is white space. -/
def Spaceless (s : Str) : Prop := ∀ c ∈ s, isSpace c = false

instance (s : Str) : Decidable (Spaceless s) := List.decidableBAll _ s

theorem spaceless_token (input : Str) : Spaceless (token input) := by
  intro c hc
  simpa using List.mem_takeWhile_imp hc

/-- A text without white space is its own token, with or without a newline. -/
theorem token_of_spaceless {s tail : Str} (hs : Spaceless s)
    (htail : ∀ c ∈ tail, isSpace c = true) : token (s ++ tail) = s := by
  have hdrop : (s ++ tail).dropWhile isSpace = s ++ tail ∨ s = [] := by
    cases s with
    | nil => exact Or.inr rfl
    | cons c s => exact Or.inl (by simp [hs c (List.mem_cons_self ..)])
  rcases hdrop with hdrop | rfl
  · rw [token, hdrop, List.takeWhile_append_of_pos fun c hc => by simp [hs c hc]]
    have htake : tail.takeWhile (fun c => !isSpace c) = [] := by
      cases tail with
      | nil => rfl
      | cons c tail => simp [htail c (List.mem_cons_self ..)]
    rw [htake, List.append_nil]
  · have hall : tail.dropWhile isSpace = [] := List.dropWhile_eq_nil_iff.mpr htail
    rw [token, List.nil_append, hall, List.takeWhile_nil]

theorem token_self {s : Str} (hs : Spaceless s) : token s = s := by
  have h := token_of_spaceless hs (List.forall_mem_nil _)
  rwa [List.append_nil] at h

/-! ### Decimal numbers -/

theorem digit_of_isDigit {c : Char} (h : c.isDigit = true) :
    digit c = some (c.toNat - '0'.toNat) := by
  have hrange : '0' ≤ c ∧ c ≤ '9' := by
    simp only [Char.isDigit, Bool.and_eq_true, decide_eq_true_eq] at h
    exact h
  exact if_pos hrange

theorem readDigits_eq_ofDigitChars (n : Nat) (cs : Str) (h : ∀ c ∈ cs, c.isDigit = true) :
    readDigits n cs = some (Nat.ofDigitChars 10 cs n) := by
  induction cs generalizing n with
  | nil => rw [readDigits, Nat.ofDigitChars_nil]
  | cons c cs ih =>
    rw [readDigits, digit_of_isDigit (h c (List.mem_cons_self ..)), Option.bind_some,
      ih _ fun c hc => h c (List.mem_cons_of_mem _ hc), Nat.ofDigitChars_cons]

theorem isDigit_of_mem_decimal {n : Nat} {c : Char} (h : c ∈ decimal n) : c.isDigit = true :=
  Nat.isDigit_of_mem_toDigits (by decide) (by decide) h

theorem readDecimal_decimal (n : Nat) : readDecimal (decimal n) = some n := by
  have hne : decimal n ≠ [] := Nat.toDigits_ne_nil
  rw [readDecimal, if_neg hne,
    readDigits_eq_ofDigitChars 0 _ fun c hc => isDigit_of_mem_decimal hc, decimal,
    Nat.ofDigitChars_ten_toDigits]

theorem narrowInt_toInt (v : Int32) : narrowInt v.toInt = some v := by
  rw [narrowInt, if_pos ⟨v.le_toInt, v.toInt_lt⟩, Int32.ofInt_toInt]

/-- The cast library reads back what was printed in decimal. -/
theorem lexicalCastInt_printInt (v : Int32) : lexicalCastInt (printInt v) = some v := by
  unfold printInt
  split
  · rename_i hneg
    have hv : -(v.toInt.natAbs : Int) = v.toInt := by omega
    rw [lexicalCastInt, readDecimal_decimal, Option.bind_some, hv, narrowInt_toInt]
  · rename_i hneg
    have hv : (v.toInt.natAbs : Int) = v.toInt := by omega
    have hsign {c : Char} {cs : Str} (h : decimal v.toInt.natAbs = c :: cs) : c.isDigit = true :=
      isDigit_of_mem_decimal (h ▸ List.mem_cons_self ..)
    unfold lexicalCastInt
    split
    · rename_i ds hds
      exact absurd (hsign hds) (by decide)
    · rename_i ds hds
      exact absurd (hsign hds) (by decide)
    · rw [readDecimal_decimal, Option.bind_some, hv, narrowInt_toInt]

theorem isSpace_of_isDigit {c : Char} (h : c.isDigit = true) : isSpace c = false := by
  by_contra hspace
  simp only [isSpace, Bool.not_eq_false, Bool.or_eq_true, decide_eq_true_eq] at hspace
  rcases hspace with ((((rfl | rfl) | rfl) | rfl) | rfl) | rfl <;> exact absurd h (by decide)

theorem spaceless_printInt (v : Int32) : Spaceless (printInt v) := by
  intro c hc
  unfold printInt at hc
  split at hc
  · rcases List.mem_cons.mp hc with rfl | hc
    · decide
    · exact isSpace_of_isDigit (isDigit_of_mem_decimal hc)
  · exact isSpace_of_isDigit (isDigit_of_mem_decimal hc)

/-! ### Values and their texts -/

/-- Values that print as one token. -/
def AttributeValue.OneToken : AttributeValue → Prop
  | .string s => Spaceless s
  | .integer _ | .boolean _ | .other _ _ => True

theorem spaceless_text_iff {v : AttributeValue} (henc : v.type.encoded = true) :
    Spaceless v.getValueToString ↔ v.OneToken := by
  cases v with
  | integer v => exact iff_true_intro (spaceless_printInt v)
  | string s => rfl
  | boolean b =>
    refine iff_true_intro ?_
    cases b <;> decide
  | other tag text => cases henc

/-- What is printed for a value of an encoded type converts to that value. -/
theorem converted_text {v : AttributeValue} (henc : v.type.encoded = true) :
    OICFileDescriptor.converted ⟨v.getValueToString, v.type⟩ = some v := by
  cases v with
  | integer v => exact congrArg (Option.map AttributeValue.integer) (lexicalCastInt_printInt v)
  | string s => rfl
  | boolean b => cases b <;> decide
  | other tag text => cases henc

/-! ### The round trip -/

/-- A read prints the text `t` as the content of the attribute `name`. -/
def PutsOut (f : OICFile ι) (reply : Reply) (name t : Str) : Prop :=
  ∃ before after d, (f.read reply).file.values.entries = before ++ (name, d) :: after ∧
    d.content = t ∧ (f.read reply).output =
      (before.flatMap fun e => e.2.content) ++ t ++ after.flatMap fun e => e.2.content

/-- Writing `input` after the read sends one PUT that carries `v` for the attribute. -/
def WritesBack (f : OICFile ι) (reply : Reply) (name : Str) (v : AttributeValue) (input : Str)
    (answer : Reply) : Prop :=
  ∃ rep, ((f.read reply).file.write input answer).sent = [.put rep] ∧ (name, v) ∈ rep.items

/-- A permitted read prints the text of what the device reports. -/
theorem putsOut_of_reply {f : OICFile ι} (hb : f.stub.isSome = true) (hr : f.mayRead = true)
    {name : Str} {d : OICFileDescriptor} {v : AttributeValue}
    (hd : (name, d) ∈ f.values.entries) {reply : Reply} (hok : reply.eCode = OC_STACK_OK)
    (hv : (name, v) ∈ reply.rep.items) : PutsOut f reply name v.getValueToString := by
  obtain ⟨before, after, hsplit⟩ := List.append_of_mem (mem_didRetrieve hok hd hv)
  rw [PutsOut, OICFile.read_sent hb hr]
  refine ⟨before, after, _, hsplit, rfl, ?_⟩
  simp only [OICFile.printed, hsplit, List.flatMap_append, List.flatMap_cons, List.append_assoc]

/-- Writing a text carries the value its token converts to, if every attribute takes it. -/
theorem writesBack_iff {f : OICFile ι} (hb : f.stub.isSome = true) (hw : f.mayWrite = true)
    {name : Str} {v : AttributeValue} (htype : (name, v.type) ∈ f.values.types) (reply : Reply)
    (input : Str) (answer : Reply) :
    WritesBack f reply name v input answer ↔
      Convertible f.values (token input) ∧
        OICFileDescriptor.converted ⟨token input, v.type⟩ = some v := by
  have hshape : OICFile.SameShape f (f.read reply).file := (f.read_call reply).sameShape
  generalize hg : (f.read reply).file = g at hshape
  have hb' : g.stub.isSome = true := hshape.bound.trans hb
  have hw' : g.mayWrite = true := hshape.mayWrite.trans hw
  rw [← hshape.types] at htype
  obtain ⟨d, hd, hdtype⟩ := OICFileAttributes.mem_types.mp htype
  have hstored : (name, ⟨token input, v.type⟩) ∈
      (g.values.setContents (token input)).entries := by
    have htype' : v.type = d.type := hdtype.symm
    rw [htype']
    exact OICFileAttributes.mem_refill hd
  rw [WritesBack, hg, convertible_congr hshape.types.symm, ← encode_setContents_isSome]
  simp only [OICFile.write_sends_iff hb' hw']
  constructor
  · rintro ⟨rep, he, hmem⟩
    obtain ⟨d', hd', hconv⟩ := (mem_encode he name v).mp hmem
    rw [OICFileAttributes.entry_unique _ hd' hstored] at hconv
    exact ⟨by rw [he]; rfl, hconv⟩
  · rintro ⟨hsome, hconv⟩
    obtain ⟨rep, he⟩ := Option.isSome_iff_exists.mp hsome
    exact ⟨rep, he, (mem_encode he name v).mpr ⟨_, hstored, hconv⟩⟩

/-- A text that converts back through its first token is that token. -/
theorem oneToken_of_converted {v : AttributeValue}
    (h : OICFileDescriptor.converted ⟨token v.getValueToString, v.type⟩ = some v) :
    v.OneToken := by
  cases v with
  | integer | boolean | other => trivial
  | string s =>
    have htoken : token s = s := by
      have hback : some (AttributeValue.string (token s)) = some (.string s) := h
      simpa using hback
    have hspace := spaceless_token s
    rwa [htoken] at hspace

/-- Writing back what was read, with or without a newline, restores the value exactly when it
prints as one token and the other attributes of the file take its text as well. -/
theorem write_back_iff (f : OICFile ι) (hb : f.stub.isSome = true) (hr : f.mayRead = true)
    (hw : f.mayWrite = true) (name : Str) (v : AttributeValue)
    (htype : (name, v.type) ∈ f.values.types) (henc : v.type.encoded = true) (reply : Reply)
    (hok : reply.eCode = OC_STACK_OK) (hv : (name, v) ∈ reply.rep.items) (answer : Reply) :
    PutsOut f reply name v.getValueToString ∧
      ((∀ input, input = v.getValueToString ∨ input = v.getValueToString ++ ['\n'] →
          WritesBack f reply name v input answer) ↔
        v.OneToken ∧ ∀ t ∈ f.values.types, t.1 ≠ name →
          OICFileDescriptor.Converts ⟨v.getValueToString, t.2⟩) := by
  obtain ⟨d, hd, hdtype⟩ := OICFileAttributes.mem_types.mp htype
  refine ⟨putsOut_of_reply hb hr hd hok hv, ?_⟩
  generalize ht : v.getValueToString = t
  constructor
  · intro h
    obtain ⟨hconv, hback⟩ := (writesBack_iff hb hw htype reply t answer).mp (h t (Or.inl rfl))
    have hone : v.OneToken := oneToken_of_converted (by rwa [ht])
    have hspace : Spaceless t := ht ▸ (spaceless_text_iff henc).mpr hone
    rw [token_self hspace, convertible_iff_types] at hconv
    exact ⟨hone, fun a ha _ => hconv a ha⟩
  · rintro ⟨hone, hothers⟩ input hinput
    have hspace : Spaceless t := ht ▸ (spaceless_text_iff henc).mpr hone
    have htoken : token input = t := by
      rcases hinput with rfl | rfl
      · exact token_self hspace
      · exact token_of_spaceless hspace (List.forall_mem_singleton.mpr (by decide))
    have hback : OICFileDescriptor.converted ⟨t, v.type⟩ = some v := ht ▸ converted_text henc
    rw [writesBack_iff hb hw htype, htoken, convertible_iff_types]
    refine ⟨fun a ha => ?_, hback⟩
    by_cases hname : a.1 = name
    · obtain ⟨d', hd', htype'⟩ := OICFileAttributes.mem_types.mp ha
      rw [hname] at hd'
      rw [← htype', OICFileAttributes.entry_unique _ hd' hd, hdtype]
      exact ((OICFileDescriptor.converted_isSome _).mp (by rw [hback]; rfl)).2
    · exact hothers a ha hname

/-- A file for a text attribute, with both permissions. -/
def sampleLabel : OICFile Str := sampleCreated [sampleInterfaces.DEFAULT_INTERFACE] (.string [])

/-- A reply giving that attribute the text `s`. -/
def sampleLabelled (s : String) : Reply :=
  ⟨OC_STACK_OK, OCRepresentation.empty.setValue ['p'] (.string s.toList)⟩

theorem write_back_iff_sampleLabel :
    PutsOut sampleLabel (sampleLabelled "lamp") ['p'] "lamp".toList ∧
      WritesBack sampleLabel (sampleLabelled "lamp") ['p'] (.string "lamp".toList)
        ("lamp".toList ++ ['\n']) (sampleLabelled "") := by
  obtain ⟨hout, hback⟩ := write_back_iff sampleLabel (by decide +kernel) (by decide +kernel)
    (by decide +kernel) ['p'] (.string "lamp".toList) (by decide) rfl (sampleLabelled "lamp") rfl
    (by decide +kernel) (sampleLabelled "")
  refine ⟨hout, hback.mpr ⟨?_, ?_⟩ _ (Or.inr rfl)⟩
  · have hspace : Spaceless "lamp".toList := by decide +kernel
    exact hspace
  · intro t ht hne
    cases List.mem_singleton.mp ht
    exact absurd rfl hne

/-- The name of the demo server's light is read in full and written back as its first word. -/
theorem write_back_sampleLabel :
    (sampleLabel.read (sampleLabelled "John's light")).output = "John's light".toList ∧
      ¬ WritesBack sampleLabel (sampleLabelled "John's light") ['p']
        (.string "John's light".toList) "John's light".toList (sampleLabelled "") := by
  refine ⟨by decide +kernel, ?_⟩
  rintro ⟨rep, hsent, hmem⟩
  have hfirst : ((sampleLabel.read (sampleLabelled "John's light")).file.write
      "John's light".toList (sampleLabelled "")).sent =
        [.put (OCRepresentation.empty.setValue ['p'] (.string "John's".toList))] := by
    decide +kernel
  rw [hfirst] at hsent
  cases hsent
  exact absurd hmem (by decide +kernel)

end IoTFS.Oic
