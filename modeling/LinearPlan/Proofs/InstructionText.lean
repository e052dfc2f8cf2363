import LinearPlan.Chain.Instruction
import LinearPlan.Proofs.Evaluation

/-!
# The grammar of chain instructions

Which texts are instructions is said here without the reader: fields between marks, an optional
execution type, operands made of pieces, and a numeral at the end. Reading accepts these texts and no
others, and gives back the pieces. Writing gives such a text for every instruction that can be
executed and whose operands contain no marks, so that what was written can be read again.
-/
namespace LinearPlan.Chain

def pieces (mark : Char) (text : String) : List String :=
  (Text.fields mark text.toList).map String.ofList

theorem notMem_of_mem_pieces {mark : Char} {text piece : String} (h : piece ∈ pieces mark text) :
    mark ∉ piece.toList := by
  obtain ⟨field, hf, rfl⟩ := List.mem_map.1 h
  rw [String.toList_ofList]
  exact Text.sep_notMem_of_mem_fields hf

theorem pieces_marked {mark : Char} {parts : List String} (hne : parts ≠ [])
    (h : ∀ part ∈ parts, mark ∉ part.toList) : pieces mark (marked mark parts) = parts := by
  have hf : Text.fields mark (Text.joined mark (parts.map String.toList)) =
      parts.map String.toList := by
    refine Text.fields_joined (fun he => hne (List.map_eq_nil_iff.1 he)) fun field hm => ?_
    obtain ⟨part, hp, rfl⟩ := List.mem_map.1 hm
    exact h part hp
  rw [pieces, marked, String.toList_ofList, hf, List.map_map]
  simp

theorem mem_of_mem_joined {mark c : Char} {parts : List (List Char)}
    (h : c ∈ Text.joined mark parts) : c = mark ∨ ∃ part ∈ parts, c ∈ part := by
  induction parts with
  | nil => cases h
  | cons part others ih =>
    rcases eq_or_ne others [] with rfl | hne
    · exact .inr ⟨part, List.mem_cons_self, h⟩
    · rw [Text.joined_cons_cons mark part hne, List.mem_append, List.mem_cons] at h
      rcases h with h | rfl | h
      · exact .inr ⟨part, List.mem_cons_self, h⟩
      · exact .inl rfl
      · exact (ih h).imp_right fun ⟨p, hp, hc⟩ => ⟨p, List.mem_cons_of_mem _ hp, hc⟩

theorem mem_joined_of_mem {mark c : Char} {parts : List (List Char)} {part : List Char}
    (hp : part ∈ parts) (hc : c ∈ part) : c ∈ Text.joined mark parts := by
  induction parts with
  | nil => cases hp
  | cons first others ih =>
    rcases eq_or_ne others [] with rfl | hne
    · rwa [List.mem_singleton.1 hp] at hc
    · rw [Text.joined_cons_cons mark first hne, List.mem_append, List.mem_cons]
      rcases List.mem_cons.1 hp with rfl | hp
      · exact .inl hc
      · exact .inr (.inr (ih hp))

theorem mem_marked {mark c : Char} {parts : List String} (h : c ∈ (marked mark parts).toList) :
    c = mark ∨ ∃ part ∈ parts, c ∈ part.toList := by
  rw [marked, String.toList_ofList] at h
  refine (mem_of_mem_joined h).imp_right fun ⟨field, hf, hc⟩ => ?_
  obtain ⟨part, hp, rfl⟩ := List.mem_map.1 hf
  exact ⟨part, hp, hc⟩

structure Decimal (digits : List Char) (n : Nat) : Prop where
  ne_nil : digits ≠ []
  isDigit : ∀ c ∈ digits, c.isDigit
  value : Nat.ofDigitChars 10 digits 0 = n

/-- A signed 64-bit integer: an optional sign and decimal digits. -/
inductive Numeral : List Char → Int → Prop
  | unsigned {digits n} : Decimal digits n → n < 2 ^ 63 → Numeral digits n
  | plus {digits n} : Decimal digits n → n < 2 ^ 63 → Numeral ('+' :: digits) n
  | minus {digits n} : Decimal digits n → n ≤ 2 ^ 63 → Numeral ('-' :: digits) (-n)

theorem le_ofDigitChars (digits : List Char) (start : Nat) :
    start ≤ Nat.ofDigitChars 10 digits start := by
  induction digits generalizing start with
  | nil => exact Nat.le_of_eq Nat.ofDigitChars_nil.symm
  | cons c rest ih =>
    rw [Nat.ofDigitChars_cons]
    exact Nat.le_trans (by omega) (ih _)

theorem isDigit_iff {c : Char} : c.isDigit = true ↔ '0' ≤ c ∧ c ≤ '9' := by
  rw [Char.isDigit, Bool.and_eq_true, decide_eq_true_iff, decide_eq_true_iff]
  rfl

theorem digitsValue_eq_ok_iff {digits : List Char} {start n : Nat} (hs : start < 2 ^ 64) :
    digitsValue digits start = .ok n ↔
      (∀ c ∈ digits, c.isDigit) ∧ Nat.ofDigitChars 10 digits start = n ∧ n < 2 ^ 64 := by
  induction digits generalizing start with
  | nil =>
    rw [digitsValue, Nat.ofDigitChars_nil, Except.ok.injEq]
    constructor
    · rintro rfl
      exact ⟨by simp, rfl, hs⟩
    · exact fun h => h.2.1
  | cons c rest ih =>
    have hnext : start * 10 + (c.toNat - 48) = 10 * start + (c.toNat - '0'.toNat) := by
      rw [Nat.mul_comm]
      rfl
    rw [digitsValue, Nat.ofDigitChars_cons, List.forall_mem_cons, isDigit_iff]
    by_cases hc : '0' ≤ c ∧ c ≤ '9'
    · simp only [hc, and_self, true_and, if_true]
      by_cases hlt : start * 10 + (c.toNat - 48) < Nat.pow 2 64
      · rw [if_pos hlt, ih hlt, hnext]
      · rw [if_neg hlt]
        refine ⟨nofun, fun ⟨_, hv, hn⟩ => absurd ?_ hlt⟩
        exact Nat.lt_of_le_of_lt (hnext ▸ hv ▸ le_ofDigitChars rest _) hn
    · simp [hc]

theorem signedValue_eq_ok_iff {negative : Bool} {digits : List Char} {z : Int} :
    signedValue negative digits = .ok z ↔
      ∃ n, Decimal digits n ∧ if negative then n ≤ 2 ^ 63 ∧ z = -n else n < 2 ^ 63 ∧ z = n := by
  unfold signedValue
  by_cases hnil : digits = []
  · simp only [if_pos hnil]
    exact ⟨nofun, fun ⟨_, h, _⟩ => absurd hnil h.ne_nil⟩
  rw [if_neg hnil]
  cases hv : digitsValue digits 0 with
  | error fault =>
    refine ⟨nofun, fun ⟨n, hd, hn⟩ => ?_⟩
    have hlt : n < 2 ^ 64 := by
      cases negative <;> simp at hn <;> omega
    rw [(digitsValue_eq_ok_iff (by decide)).2 ⟨hd.isDigit, hd.value, hlt⟩] at hv
    cases hv
  | ok m =>
    have hd : ∀ {n}, Decimal digits n ↔ n = m := by
      obtain ⟨hdigit, hm, -⟩ := (digitsValue_eq_ok_iff (by decide)).1 hv
      exact fun {n} => ⟨fun h => h.value.symm.trans hm, fun h => ⟨hnil, hdigit, hm.trans h.symm⟩⟩
    simp only [hd, exists_eq_left]
    cases negative <;> simp <;> split <;> simp_all [eq_comm]

theorem Decimal.head_ne {digits : List Char} {n : Nat} {c : Char} (h : Decimal digits n)
    (hc : c.isDigit = false) (rest : List Char) : digits ≠ c :: rest := by
  rintro rfl
  rw [h.isDigit c List.mem_cons_self] at hc
  cases hc

theorem integer_eq_ok_iff {text : List Char} {z : Int} : integer text = .ok z ↔ Numeral text z := by
  constructor
  · intro h
    unfold integer at h
    split at h <;> obtain ⟨n, hd, hn, rfl⟩ := signedValue_eq_ok_iff.1 h
    · exact .minus hd hn
    · exact .plus hd hn
    · exact .unsigned hd hn
  · intro h
    cases h with
    | unsigned hd hn =>
      unfold integer
      split
      · exact absurd rfl (hd.head_ne (by decide) _)
      · exact absurd rfl (hd.head_ne (by decide) _)
      · exact signedValue_eq_ok_iff.2 ⟨_, hd, hn, rfl⟩
    | plus hd hn => exact signedValue_eq_ok_iff.2 ⟨_, hd, hn, rfl⟩
    | minus hd hn => exact signedValue_eq_ok_iff.2 ⟨_, hd, hn, rfl⟩

theorem decimal_toDigits (n : Nat) : Decimal (Nat.toDigits 10 n) n where
  ne_nil := Nat.toDigits_ne_nil
  isDigit _ h := Nat.isDigit_of_mem_toDigits (by decide) (by decide) h
  value := Nat.ofDigitChars_toDigits (by decide) (by decide)

theorem toList_toString_natCast (n : Nat) : (toString (n : Int)).toList = Nat.toDigits 10 n :=
  String.toList_ofList

theorem toList_toString_negSucc (n : Nat) :
    (toString (Int.negSucc n)).toList = '-' :: Nat.toDigits 10 (n + 1) := by
  show ("-" ++ String.ofList (Nat.toDigits 10 (n + 1))).toList = _
  rw [String.toList_append]
  exact congrArg ('-' :: ·) String.toList_ofList

theorem numeral_toString {z : Int} (h : -2 ^ 63 ≤ z) (h' : z < 2 ^ 63) :
    Numeral (toString z).toList z := by
  cases z with
  | ofNat n =>
    rw [Int.ofNat_eq_natCast, toList_toString_natCast]
    exact .unsigned (decimal_toDigits n) (by simp at h'; omega)
  | negSucc n =>
    rw [toList_toString_negSucc]
    exact .minus (decimal_toDigits (n + 1)) (by omega)

theorem Numeral.bounds {text : List Char} {z : Int} (h : Numeral text z) :
    -2 ^ 63 ≤ z ∧ z < 2 ^ 63 := by
  cases h <;> omega

theorem notMem_toString {mark : Char} (hd : mark.isDigit = false) (hm : mark ≠ '-') (z : Int) :
    mark ∉ (toString z).toList := by
  have hdigits (n : Nat) : mark ∉ Nat.toDigits 10 n := fun h => by
    rw [(decimal_toDigits n).isDigit mark h] at hd
    cases hd
  cases z with
  | ofNat n => rw [Int.ofNat_eq_natCast, toList_toString_natCast]; exact hdigits n
  | negSucc n =>
    rw [toList_toString_negSucc, List.mem_cons]
    exact not_or.2 ⟨hm, hdigits _⟩

namespace Operand
variable {o : Operand} {text : String}

inductive HasPieces : List String → Operand → Prop
  | untyped {name} : name ≠ "" → HasPieces [name] ⟨name, "", ""⟩
  | typed {name dataType} : name ≠ "" → HasPieces [name, dataType] ⟨name, dataType, ""⟩
  | full {name dataType valueType} : name ≠ "" →
    HasPieces [name, dataType, valueType] ⟨name, dataType, valueType⟩

def Spelled (text : String) (o : Operand) : Prop := HasPieces (pieces typeMark text) o

theorem parse_eq_ok_iff : Operand.parse text = .ok o ↔ Spelled text o := by
  rw [Operand.parse, ← pieces, Spelled]
  generalize pieces typeMark text = parts
  constructor
  · intro h
    split at h
    · cases h
    · cases h; exact .untyped (by assumption)
    · cases h; exact .typed (by assumption)
    · cases h; exact .full (by assumption)
    · cases h
  · intro h
    cases h <;> simp [*]

def Plain (o : Operand) : Prop :=
  ∀ part ∈ [o.name, o.dataType, o.valueType], fieldMark ∉ part.toList ∧ typeMark ∉ part.toList

theorem mem_of_mem_fields {part : String} (h : part ∈ o.fields) :
    part ∈ [o.name, o.dataType, o.valueType] := by
  rw [fields] at h
  split at h <;> split at h <;> simp at h ⊢ <;> tauto

theorem hasPieces_fields (h : o.name ≠ "") : HasPieces o.fields o := by
  obtain ⟨name, dataType, valueType⟩ := o
  by_cases hv : valueType = ""
  · by_cases hd : dataType = ""
    · simpa [fields, hd, hv] using HasPieces.untyped h
    · simpa [fields, hd, hv] using HasPieces.typed h
  · simpa [fields, hv] using HasPieces.full h

theorem parse_text (hname : o.name ≠ "") (h : o.Plain) : Operand.parse o.text = .ok o := by
  rw [parse_eq_ok_iff, Operand.text, Spelled,
    pieces_marked (by simp [fields]) fun part hp => (h part (mem_of_mem_fields hp)).2]
  exact hasPieces_fields hname

theorem Plain.notMem_text (h : o.Plain) : fieldMark ∉ o.text.toList := fun hm => by
  obtain hm | ⟨part, hp, hc⟩ := mem_marked hm
  · exact absurd hm (by decide)
  · exact (h part (mem_of_mem_fields hp)).1 hc

theorem plain_absent : absent.Plain := by
  intro part hp
  simp only [absent, List.mem_cons, List.not_mem_nil, or_false, or_self] at hp
  subst hp
  exact ⟨List.not_mem_nil, List.not_mem_nil⟩

theorem HasPieces.mem {parts : List String} {part : String} (h : HasPieces parts o)
    (hp : part ∈ [o.name, o.dataType, o.valueType]) : part ∈ parts ∨ part = "" := by
  cases h <;> simp at hp ⊢ <;> tauto

theorem HasPieces.name_ne {parts : List String} (h : HasPieces parts o) : o.name ≠ "" := by
  cases h <;> assumption

theorem Spelled.plain (hf : fieldMark ∉ text.toList) (h : Spelled text o) : o.Plain := by
  intro part hp
  rcases HasPieces.mem h hp with hp | rfl
  · refine ⟨fun hc => hf ?_, notMem_of_mem_pieces hp⟩
    obtain ⟨field, hfield, rfl⟩ := List.mem_map.1 hp
    rw [String.toList_ofList] at hc
    rw [← Text.joined_fields typeMark text.toList]
    exact mem_joined_of_mem hfield hc
  · exact ⟨List.not_mem_nil, List.not_mem_nil⟩

end Operand

theorem Kind.ofName?_eq_some_iff {name : String} {k : Kind} :
    Kind.ofName? name = some k ↔ k.isValid ∧ k.name = name := by
  constructor
  · intro h
    have hm := List.mem_of_find?_eq_some h
    have hn := List.find?_some h
    refine ⟨?_, by simpa using hn⟩
    simp only [List.mem_cons, List.not_mem_nil, or_false] at hm
    rcases hm with rfl | rfl | rfl <;> rfl
  · rintro ⟨hv, rfl⟩
    cases k <;> first | rfl | cases hv

theorem Kind.eq_of_isValid {k : Kind} (h : k.isValid) :
    k = .XtXv ∧ k.hasThird = false ∨ (k = .XtwXv ∨ k = .XtXvy) ∧ k.hasThird = true := by
  cases k <;> simp_all [Kind.isValid, Kind.hasThird]

namespace Instruction
variable {i : Instruction} {text : String}

theorem invalid?_eq_none_iff : i.invalid? = none ↔
    i.kind.isValid ∧ (i.w.name ≠ "" ↔ i.kind.hasThird) ∧
      i.x.name ≠ "" ∧ i.v.name ≠ "" ∧ i.out.name ≠ "" := by
  unfold invalid?
  by_cases hw : i.w.name = "" <;> cases hk : i.kind.isValid <;> cases ht : i.kind.hasThird <;>
    simp [hw]

/-- The fields after the operation: two operands and the result, or three operands and the result,
then the kind and the number of threads. -/
inductive HasBody : List String → Instruction → Prop
  | two {x v out threads : String} {i : Instruction} :
    Operand.Spelled x i.x → Operand.Spelled v i.v →
    i.w = .absent → Operand.Spelled out i.out →
    i.kind = .XtXv → Numeral threads.toList i.threads →
    HasBody [x, v, out, "XtXv", threads] i
  | three {x v w out kind threads : String} {i : Instruction} :
    Operand.Spelled x i.x → Operand.Spelled v i.v →
    Operand.Spelled w i.w → Operand.Spelled out i.out →
    (kind = "XtwXv" ∧ i.kind = .XtwXv ∨ kind = "XtXvy" ∧ i.kind = .XtXvy) →
    Numeral threads.toList i.threads → HasBody [x, v, w, out, kind, threads] i

/-- The fields of an instruction: the operation, with or without the execution type before it, and
all that follows it. -/
def HasFields (parts : List String) (i : Instruction) : Prop :=
  ∃ body, (parts = opcode :: body ∨ parts = execType :: opcode :: body) ∧ HasBody body i

theorem body?_eq_some_iff {parts body : List String} :
    body? parts = some body ↔ parts = opcode :: body ∨ parts = execType :: opcode :: body := by
  have hne : execType ≠ opcode := by decide
  unfold body?
  split
  · rename_i first rest
    by_cases h₁ : first = opcode
    · simp [h₁, hne.symm]
    · by_cases h₂ : first = execType
      · cases rest <;> simp [h₂, hne]
      · simp [h₁, h₂]
  · simp

theorem parseOperands_eq_ok_iff {position : Nat} {texts : List String} {os : List Operand} :
    parseOperands position texts = .ok os ↔
      List.Forall₂ Operand.Spelled texts os := by
  induction texts generalizing position os with
  | nil => simp [parseOperands, eq_comm]
  | cons text rest ih =>
    rw [parseOperands, List.forall₂_cons_left_iff]
    simp only [← Operand.parse_eq_ok_iff, ← @ih (position + 1)]
    cases Operand.parse text with
    | error => simp
    | ok o => cases parseOperands (position + 1) rest <;> simp [eq_comm]

theorem parseTail_eq_ok_iff {kind threads : String} {k : Kind} {n : Int} :
    parseTail kind threads = .ok (k, n) ↔
      (k.isValid ∧ k.name = kind) ∧ Numeral threads.toList n := by
  rw [parseTail, ← Kind.ofName?_eq_some_iff, ← integer_eq_ok_iff]
  cases Kind.ofName? kind with
  | none => simp
  | some k' => cases integer threads.toList <;> simp

theorem ofOperands_eq_some_iff {os : List Operand} {k : Kind} {n : Int} :
    ofOperands os k n = some i ↔ (os = [i.x, i.v, i.out] ∧ i.w = .absent ∨
      os = [i.x, i.v, i.w, i.out]) ∧ i.kind = k ∧ i.threads = n := by
  obtain ⟨x, v, w, out, kind, threads⟩ := i
  unfold ofOperands
  split <;> simp_all [eq_comm] <;> tauto

theorem parseFields_eq_ok_iff {texts : List String} {kind threads : String} :
    parseFields text texts kind threads = .ok i ↔
      ∃ os, List.Forall₂ Operand.Spelled texts os ∧
        (os = [i.x, i.v, i.out] ∧ i.w = .absent ∨ os = [i.x, i.v, i.w, i.out]) ∧
        (i.kind.isValid ∧ i.kind.name = kind) ∧ Numeral threads.toList i.threads ∧
          i.invalid? = none := by
  simp only [parseFields, Outcome.bind_eq_ok_iff, parseOperands_eq_ok_iff]
  constructor
  · rintro ⟨os, hos, ⟨k, n⟩, htail, h⟩
    obtain ⟨hkind, hthreads⟩ := parseTail_eq_ok_iff.1 htail
    cases hi : ofOperands os k n with
    | none => simp [hi] at h
    | some j =>
      cases hvalid : j.invalid? with
      | some cause => simp [hi, hvalid] at h
      | none =>
        simp only [hi, hvalid, Except.ok.injEq] at h
        subst h
        obtain ⟨hos', rfl, rfl⟩ := ofOperands_eq_some_iff.1 hi
        exact ⟨os, hos, hos', hkind, hthreads, hvalid⟩
  · rintro ⟨os, hos, hi, hkind, hthreads, hvalid⟩
    refine ⟨os, hos, (i.kind, i.threads), parseTail_eq_ok_iff.2 ⟨hkind, hthreads⟩, ?_⟩
    simp [ofOperands_eq_some_iff.2 ⟨hi, rfl, rfl⟩, hvalid]

theorem HasBody.valid {body : List String} (h : HasBody body i) : i.invalid? = none := by
  rw [invalid?_eq_none_iff]
  cases h with
  | two hx hv hw hout hkind _ =>
    exact ⟨by rw [hkind]; rfl, by simp [hw, hkind, Operand.absent, Kind.hasThird],
      hx.name_ne, hv.name_ne, hout.name_ne⟩
  | three hx hv hw hout hkind _ =>
    have hthird : i.kind.isValid ∧ i.kind.hasThird := by
      rcases hkind with ⟨-, h⟩ | ⟨-, h⟩ <;> rw [h] <;> exact ⟨rfl, rfl⟩
    exact ⟨hthird.1, by simp [hw.name_ne, hthird.2], hx.name_ne, hv.name_ne, hout.name_ne⟩

theorem parseFields_two_iff {x v out kind threads : String} :
    parseFields text [x, v, out] kind threads = .ok i ↔ HasBody [x, v, out, kind, threads] i := by
  rw [parseFields_eq_ok_iff]
  constructor
  · rintro ⟨os, hos, hi, ⟨hkind, rfl⟩, hthreads, hvalid⟩
    rcases hi with ⟨rfl, hw⟩ | rfl
    · obtain ⟨-, hthird, -⟩ := invalid?_eq_none_iff.1 hvalid
      rcases Kind.eq_of_isValid hkind with ⟨hk, -⟩ | ⟨-, hk⟩
      · simp only [List.forall₂_cons, List.forall₂_nil_left_iff, and_true] at hos
        obtain ⟨hx, hv, hout⟩ := hos
        rw [hk]
        exact .two hx hv hw hout hk hthreads
      · exact absurd (hw ▸ rfl) (hthird.2 hk)
    · simp at hos
  · intro h
    have hvalid := h.valid
    cases h with
    | two hx hv hw hout hkind hthreads =>
      refine ⟨[i.x, i.v, i.out], by simp [*], .inl ⟨rfl, hw⟩, ?_, hthreads, hvalid⟩
      rw [hkind]
      exact ⟨rfl, rfl⟩

theorem parseFields_three_iff {x v w out kind threads : String} :
    parseFields text [x, v, w, out] kind threads = .ok i ↔
      HasBody [x, v, w, out, kind, threads] i := by
  rw [parseFields_eq_ok_iff]
  constructor
  · rintro ⟨os, hos, hi, ⟨hkind, rfl⟩, hthreads, hvalid⟩
    rcases hi with ⟨rfl, hw⟩ | rfl
    · simp at hos
    · simp only [List.forall₂_cons, List.forall₂_nil_left_iff, and_true] at hos
      obtain ⟨hx, hv, hw, hout⟩ := hos
      obtain ⟨-, hthird, -⟩ := invalid?_eq_none_iff.1 hvalid
      rcases Kind.eq_of_isValid hkind with ⟨-, hk⟩ | ⟨hk, -⟩
      · rw [hthird.1 hw.name_ne] at hk
        cases hk
      · refine .three hx hv hw hout ?_ hthreads
        rcases hk with hk | hk <;> rw [hk] <;> simp [Kind.name]
  · intro h
    have hvalid := h.valid
    cases h with
    | three hx hv hw hout hkind hthreads =>
      refine ⟨[i.x, i.v, i.w, i.out], by simp [*], .inr rfl, ?_, hthreads, hvalid⟩
      rcases hkind with ⟨rfl, hk⟩ | ⟨rfl, hk⟩ <;> rw [hk] <;> exact ⟨rfl, rfl⟩

theorem parse_eq_ok_iff : Instruction.parse text = .ok i ↔
    ∃ body, body? (pieces fieldMark text) = some body ∧ HasBody body i := by
  rw [Instruction.parse, ← pieces]
  cases hbody : body? (pieces fieldMark text) with
  | none => simp
  | some body =>
    simp only [Option.some.injEq, exists_eq_left']
    split
    · cases ‹some body = none›
    · cases ‹some body = some _›
      exact parseFields_two_iff
    · cases ‹some body = some _›
      exact parseFields_three_iff
    · rename_i htwo hthree h
      cases h
      refine ⟨nofun, fun h => ?_⟩
      cases h with
      | two => exact absurd rfl (htwo _ _ _ _ _)
      | three => exact absurd rfl (hthree _ _ _ _ _ _)

/-- A text is read as an instruction exactly if the grammar gives its fields to that instruction, and
is refused exactly if it gives them to none. -/
theorem parse_accepts_grammar (text : String) :
    (∀ i, Instruction.parse text = .ok i ↔ HasFields (pieces fieldMark text) i) ∧
      ((∃ fault, Instruction.parse text = .error fault) ↔
        ∀ i, ¬ HasFields (pieces fieldMark text) i) := by
  have hok (i : Instruction) :
      Instruction.parse text = .ok i ↔ HasFields (pieces fieldMark text) i := by
    rw [parse_eq_ok_iff]
    simp only [body?_eq_some_iff, HasFields]
  refine ⟨hok, ?_⟩
  simp only [← hok]
  cases Instruction.parse text <;> simp

/-- Instructions that can be executed, with no marks in their operands, nothing but a name left out
with the third operand, and a number of threads of 64 bits. -/
structure Writable (i : Instruction) : Prop where
  valid : i.invalid? = none
  plain : ∀ o ∈ [i.x, i.v, i.w, i.out], o.Plain
  absent : i.w.name = "" → i.w = .absent
  threads : -2 ^ 63 ≤ i.threads ∧ i.threads < 2 ^ 63

theorem notMem_kindName {k : Kind} (h : k.isValid) : fieldMark ∉ k.name.toList := by
  rcases Kind.eq_of_isValid h with ⟨rfl, -⟩ | ⟨rfl | rfl, -⟩ <;> decide

namespace Writable

theorem notMem_fields (h : i.Writable) : ∀ field ∈ i.fields, fieldMark ∉ field.toList := by
  have hplain := h.plain
  have hkind := (invalid?_eq_none_iff.1 h.valid).1
  simp only [List.forall_mem_cons] at hplain
  obtain ⟨hx, hv, hw, hout, -⟩ := hplain
  have hthird : ∀ field ∈ (if i.w.name ≠ "" then [i.w.text] else []), fieldMark ∉ field.toList := by
    split <;> simp [hw.notMem_text]
  intro field hf
  simp only [fields, List.mem_append, List.mem_cons, List.not_mem_nil, or_false] at hf
  rcases hf with ((rfl | rfl | rfl | rfl) | hf) | rfl | rfl | rfl
  · decide
  · decide
  · exact hx.notMem_text
  · exact hv.notMem_text
  · exact hthird field hf
  · exact hout.notMem_text
  · exact notMem_kindName hkind
  · exact notMem_toString (by decide) (by decide) _

theorem hasBody (h : i.Writable) : HasBody (i.fields.drop 2) i := by
  have hplain := h.plain
  simp only [List.forall_mem_cons] at hplain
  obtain ⟨hx, hv, hw, hout, -⟩ := hplain
  obtain ⟨hkind, hthird, hxn, hvn, hon⟩ := invalid?_eq_none_iff.1 h.valid
  have hspelled {o : Operand} (hn : o.name ≠ "") (hp : o.Plain) : Operand.Spelled o.text o :=
    Operand.parse_eq_ok_iff.1 (Operand.parse_text hn hp)
  have hthreads := numeral_toString h.threads.1 h.threads.2
  rcases Kind.eq_of_isValid hkind with ⟨hk, ht⟩ | ⟨hk, ht⟩
  · have hwn : i.w.name = "" := by
      by_contra hne
      rw [hthird.1 hne] at ht
      cases ht
    simp only [fields, hwn, hk]
    exact .two (hspelled hxn hx) (hspelled hvn hv) (h.absent hwn) (hspelled hon hout) hk hthreads
  · have hwn : i.w.name ≠ "" := hthird.2 ht
    simp only [fields, hwn, ne_eq, not_false_eq_true, if_true]
    refine .three (hspelled hxn hx) (hspelled hvn hv) (hspelled hwn hw) (hspelled hon hout) ?_
      hthreads
    rcases hk with hk | hk <;> simp [hk, Kind.name]

theorem parse_text (h : i.Writable) : Instruction.parse i.text = .ok i := by
  rw [parse_eq_ok_iff, Instruction.text, pieces_marked (by simp [fields]) h.notMem_fields]
  refine ⟨i.fields.drop 2, body?_eq_some_iff.2 (.inr ?_), h.hasBody⟩
  simp [fields]

end Writable

theorem writable_of_parse (h : Instruction.parse text = .ok i) : i.Writable := by
  obtain ⟨body, hbody, hi⟩ := parse_eq_ok_iff.1 h
  have hfield : ∀ field ∈ body, fieldMark ∉ field.toList := by
    intro field hf
    refine notMem_of_mem_pieces (?_ : field ∈ pieces fieldMark text)
    rcases body?_eq_some_iff.1 hbody with h | h <;> rw [h] <;> simp [hf]
  have hvalid := hi.valid
  cases hi with
  | two hx hv hw hout hkind hthreads =>
    simp only [List.forall_mem_cons] at hfield
    obtain ⟨hfx, hfv, hfo, -⟩ := hfield
    refine ⟨hvalid, ?_, fun _ => hw, hthreads.bounds⟩
    simp [hw, Operand.plain_absent, hx.plain hfx, hv.plain hfv, hout.plain hfo]
  | three hx hv hw hout hkind hthreads =>
    simp only [List.forall_mem_cons] at hfield
    obtain ⟨hfx, hfv, hfw, hfo, -⟩ := hfield
    refine ⟨hvalid, ?_, fun h => absurd h hw.name_ne, hthreads.bounds⟩
    simp [hx.plain hfx, hv.plain hfv, hw.plain hfw, hout.plain hfo]

/-- Reading gives back what was written, for every instruction that can be written, and what was read
can always be written: a text that was written is left as it is by reading and writing it again. -/
theorem text_round_trips :
    (∀ i : Instruction, i.Writable → Instruction.parse i.text = .ok i) ∧
      ∀ (text : String) (i : Instruction), Instruction.parse text = .ok i →
        i.invalid? = none ∧ Instruction.parse i.text = .ok i ∧
          (Instruction.parse i.text).map Instruction.text = .ok i.text := by
  refine ⟨fun i h => h.parse_text, fun text i h => ?_⟩
  have hw := writable_of_parse h
  refine ⟨hw.valid, hw.parse_text, ?_⟩
  rw [hw.parse_text]
  rfl

def weighted : Instruction :=
  ⟨⟨"X", "MATRIX", "FP64"⟩, ⟨"v", "", ""⟩, ⟨"w", "", "FP64"⟩, ⟨"out", "MATRIX", ""⟩, .XtwXv, -3⟩

theorem text_round_trips_weighted :
    weighted.Writable ∧ Instruction.parse weighted.text = .ok weighted ∧
      Instruction.parse "mmchain°X·MATRIX·FP64°v·°w··FP64°out·MATRIX·°XtwXv°-03" = .ok weighted ∧
        weighted.invalid? = none ∧
          (Instruction.parse weighted.text).map Instruction.text = .ok weighted.text := by
  have hw : weighted.Writable :=
    ⟨by decide, by unfold Operand.Plain; decide, by decide, by decide⟩
  have hread : Instruction.parse "mmchain°X·MATRIX·FP64°v·°w··FP64°out·MATRIX·°XtwXv°-03" =
      .ok weighted := by decide +kernel
  obtain ⟨hwritten, hreread⟩ := text_round_trips
  obtain ⟨hvalid, -, hfixed⟩ := hreread _ _ hread
  exact ⟨hw, hwritten _ hw, hread, hvalid, hfixed⟩

end Instruction

end LinearPlan.Chain
