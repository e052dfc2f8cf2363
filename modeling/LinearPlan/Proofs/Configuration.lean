import LinearPlan.Optimizer.Config
import LinearPlan.Proofs.PlainEvaluation
import Mathlib.Data.List.TakeWhile

/-!
# Choosing rules by a text

A configuration is written from fields with commas between them. A field holds a choice or nothing, with
blanks around it, and a choice is a name with or without options. Reading a configuration finds the choices
again, so it gives the rules that the constructors of their names make, in the order of the text.

A field is trimmed before it is read. A choice is therefore found only if its text neither begins nor ends
with a blank and is not empty. Registration refuses the marks `,` and `:` in a name but not this, and a
rule whose name begins with a blank cannot be chosen.
-/
namespace LinearPlan

namespace Text
variable {before text after : List Char}

def Solid (text : List Char) : Prop :=
  (∃ c ∈ text.head?, isBlank c = false) ∧ ∃ c ∈ text.getLast?, isBlank c = false

theorem Solid.ne_nil (h : Solid text) : text ≠ [] := by
  rintro rfl
  obtain ⟨⟨c, hc, -⟩, -⟩ := h
  cases hc

theorem dropWhile_blanks (hb : ∀ c ∈ before, isBlank c = true)
    (h : ∃ c ∈ text.head?, isBlank c = false) :
    (before ++ text).dropWhile isBlank = text := by
  obtain ⟨c, hc, hblank⟩ := h
  obtain ⟨rest, rfl⟩ := List.head?_eq_some_iff.1 hc
  rw [List.dropWhile_append_of_pos hb, List.dropWhile_cons_of_neg (by simp [hblank])]

theorem trimmed_padded (hb : ∀ c ∈ before, isBlank c = true) (ha : ∀ c ∈ after, isBlank c = true)
    (h : Solid text) : trimmed (before ++ text ++ after) = text := by
  obtain ⟨⟨c, hc, hstart⟩, hend⟩ := h
  have hfront : (before ++ (text ++ after)).dropWhile isBlank = text ++ after :=
    dropWhile_blanks hb ⟨c, List.mem_head?_append_of_mem_head? hc, hstart⟩
  have hback : (after.reverse ++ text.reverse).dropWhile isBlank = text.reverse :=
    dropWhile_blanks (fun c hc => ha c (List.mem_reverse.1 hc)) (by rwa [List.head?_reverse])
  rw [trimmed, List.append_assoc, hfront, List.reverse_append, hback, List.reverse_reverse]

theorem trimmed_eq_nil_iff : trimmed text = [] ↔ ∀ c ∈ text, isBlank c = true := by
  rw [trimmed, List.reverse_eq_nil_iff, List.dropWhile_eq_nil_iff]
  constructor
  · intro h
    refine List.dropWhile_eq_nil_iff.1 (by_contra fun hne => ?_)
    have hhead := h _ (List.mem_reverse.2 (List.head_mem hne))
    rw [List.head_dropWhile_not isBlank hne] at hhead
    cases hhead
  · intro h c hc
    exact h c ((List.dropWhile_suffix isBlank).mem (List.mem_reverse.1 hc))

theorem cut_append_cons {mark : Char} (h : mark ∉ before) (after : List Char) :
    cut mark (before ++ mark :: after) = (before, after) := by
  have hne : ∀ c ∈ before, (c != mark) = true := fun c hc => bne_iff_ne.2 fun he => h (he ▸ hc)
  rw [cut, List.takeWhile_append_of_pos hne, List.dropWhile_append_of_pos hne]
  simp

theorem cut_of_notMem {mark : Char} (h : mark ∉ text) : cut mark text = (text, []) := by
  have hne : ∀ c ∈ text, (c != mark) = true := fun c hc => bne_iff_ne.2 fun he => h (he ▸ hc)
  rw [cut, List.takeWhile_eq_self_iff.2 hne, List.dropWhile_eq_nil_iff.2 hne]
  rfl

end Text

namespace Optimizer

namespace Registry
variable {r r' : Registry} {entries : List (String × Constructor)} {name : String}

/-- Rules registered one after another, from an empty registry. -/
def registerAll (entries : List (String × Constructor)) : Except ConfigFault Registry :=
  entries.foldlM (fun r entry => r.register entry.1 entry.2) empty

def lastUnder (entries : List (String × Constructor)) (name : String) : Option Constructor :=
  entries.reverse.lookup name

theorem lookup_cons_if (key other : String) (make : Constructor) (l : List (String × Constructor)) :
    ((key, make) :: l).lookup other = if other = key then some make else l.lookup other := by
  rw [List.lookup_cons]
  by_cases h : other = key
  · rw [if_pos h, beq_iff_eq.2 h]
  · rw [if_neg h, beq_eq_false_iff_ne.2 h]

theorem lookup_put (name other : String) (make : Constructor) (l : List (String × Constructor)) :
    (put name make l).lookup other = if other = name then some make else l.lookup other := by
  induction l with
  | nil => rw [put, lookup_cons_if]
  | cons entry rest ih =>
    obtain ⟨key, old⟩ := entry
    by_cases hkey : key = name
    · rw [put, if_pos hkey, lookup_cons_if, lookup_cons_if, hkey]
      split <;> rfl
    · rw [put, if_neg hkey, lookup_cons_if, lookup_cons_if, ih]
      by_cases hother : other = key
      · rw [if_pos hother, if_pos hother, if_neg fun he => hkey (hother ▸ he)]
      · rw [if_neg hother, if_neg hother]

theorem register_ok {make : Constructor} (h : r.register name make = .ok r') :
    ',' ∉ name.toList ∧ ':' ∉ name.toList ∧
      ∀ other, r'.find? other = if other = name then some make else r.find? other := by
  rw [register] at h
  split at h
  · cases h
  · rename_i hmarks
    cases h
    have hall : ∀ c ∈ name.toList, c ≠ ',' ∧ c ≠ ':' := by simpa using hmarks
    exact ⟨fun hc => (hall _ hc).1 rfl, fun hc => (hall _ hc).2 rfl,
      fun other => lookup_put name other make r.entries⟩

theorem foldlM_register_ok
    (h : entries.foldlM (fun r entry => r.register entry.1 entry.2) r = .ok r') :
    (∀ entry ∈ entries, ',' ∉ entry.1.toList ∧ ':' ∉ entry.1.toList) ∧
      ∀ other, r'.find? other = (lastUnder entries other).or (r.find? other) := by
  induction entries generalizing r with
  | nil =>
    cases h
    exact ⟨fun _ he => absurd he List.not_mem_nil, fun _ => rfl⟩
  | cons entry rest ih =>
    obtain ⟨next, hnext, hrest⟩ := Outcome.bind_eq_ok_iff.1 h
    obtain ⟨hcomma, hcolon, hfind⟩ := register_ok hnext
    obtain ⟨hmarks, hlast⟩ := ih hrest
    refine ⟨List.forall_mem_cons.2 ⟨⟨hcomma, hcolon⟩, hmarks⟩, fun other => ?_⟩
    rw [hlast, hfind, lastUnder, lastUnder, List.reverse_cons, List.lookup_append, lookup_cons_if,
      Option.or_assoc]
    split <;> rfl

theorem find?_of_registerAll (h : registerAll entries = .ok r) (name : String) :
    r.find? name = lastUnder entries name := by
  rw [(foldlM_register_ok h).2 name]
  exact Option.or_none

theorem exists_lastUnder (h : name ∈ entries.map Prod.fst) :
    ∃ make, lastUnder entries name = some make := by
  obtain ⟨entry, hm, rfl⟩ := List.mem_map.1 h
  exact Option.isSome_iff_exists.1
    (List.lookup_isSome_iff.2 ⟨entry, List.mem_reverse.2 hm, beq_self_eq_true _⟩)

theorem lastUnder_eq_none (h : name ∉ entries.map Prod.fst) : lastUnder entries name = none :=
  List.lookup_eq_none_iff.2 fun _ he => bne_iff_ne.2 fun heq =>
    h (heq ▸ List.mem_map_of_mem (List.mem_reverse.1 he))

end Registry

structure Choice where
  name : String
  options : Option String
deriving DecidableEq

namespace Choice
variable {c : Choice}

def given (c : Choice) : String := c.options.getD ""

def text (c : Choice) : List Char :=
  c.name.toList ++ (c.options.map fun options => ':' :: options.toList).getD []

/-- Options that can be written: without a comma, and without a blank at the end. -/
structure Plain (c : Choice) : Prop where
  comma_notMem : ',' ∉ c.given.toList
  last_of_given : c.given.toList.getLast?.any Text.isBlank = false

/-- Trimming does not reach the name: it begins with no blank, and where no options follow it, it is not
empty and ends with no blank. -/
structure Kept (c : Choice) : Prop where
  first_of_name : c.name.toList.head?.any Text.isBlank = false
  name_ne : c.options = none → c.name ≠ ""
  last_of_name : c.options = none → c.name.toList.getLast?.any Text.isBlank = false

def made (entries : List (String × Constructor)) (c : Choice) : Option (Except OptionsFault Rule) :=
  (Registry.lastUnder entries c.name).map fun make => make c.given

theorem solid_text (hp : c.Plain) (hk : c.Kept) : Text.Solid c.text := by
  obtain ⟨name, options⟩ := c
  have hfirst : ∀ hne : name.toList ≠ [], Text.isBlank (name.toList.head hne) = false := fun hne => by
    simpa [List.head?_eq_some_head hne] using hk.first_of_name
  cases options with
  | none =>
    have hne : name.toList ≠ [] := fun he => hk.name_ne rfl (String.toList_eq_nil_iff.1 he)
    have hlast : Text.isBlank (name.toList.getLast hne) = false := by
      simpa [List.getLast?_eq_some_getLast hne] using hk.last_of_name rfl
    rw [text, Option.map_none, Option.getD_none, List.append_nil]
    exact ⟨⟨_, List.head?_eq_some_head hne, hfirst hne⟩, _, List.getLast?_eq_some_getLast hne, hlast⟩
  | some options =>
    -- The colon stands in for an empty name in front and for empty options behind.
    constructor
    · rcases eq_or_ne name.toList [] with hnil | hne
      · exact ⟨':', by simp [text, hnil], by decide⟩
      · exact ⟨_, List.mem_head?_append_of_mem_head? (List.head?_eq_some_head hne), hfirst hne⟩
    · rcases eq_or_ne options.toList [] with hnil | hne
      · exact ⟨':', by simp [text, hnil], by decide⟩
      · have hlast : Text.isBlank (options.toList.getLast hne) = false := by
          simpa [given, List.getLast?_eq_some_getLast hne] using hp.last_of_given
        refine ⟨_, ?_, hlast⟩
        simp [text, List.getLast?_append, List.getLast?_cons, List.getLast?_eq_some_getLast hne]

theorem comma_notMem_text (hname : ',' ∉ c.name.toList) (hp : c.Plain) : ',' ∉ c.text := by
  obtain ⟨name, options⟩ := c
  cases options with
  | none => simpa [text] using hname
  | some options => simpa [text, given, hname] using hp.comma_notMem

theorem cut_text (hname : ':' ∉ c.name.toList) :
    Text.cut ':' c.text = (c.name.toList, c.given.toList) := by
  obtain ⟨name, options⟩ := c
  cases options with
  | none =>
    rw [text, Option.map_none, Option.getD_none, List.append_nil, Text.cut_of_notMem hname]
    rfl
  | some options => exact Text.cut_append_cons hname options.toList

end Choice

structure Field where
  before : List Char
  choice : Option Choice
  after : List Char
  before_blank : before.all Text.isBlank = true
  after_blank : after.all Text.isBlank = true

namespace Field

def core (f : Field) : List Char := (f.choice.map Choice.text).getD []

def text (f : Field) : List Char := f.before ++ f.core ++ f.after

theorem trimmed_text {f : Field} (h : ∀ c ∈ f.choice, Text.Solid c.text) :
    Text.trimmed f.text = f.core := by
  obtain ⟨before, choice, after, hb, ha⟩ := f
  rw [List.all_eq_true] at hb ha
  cases choice with
  | some c => exact Text.trimmed_padded hb ha (h c rfl)
  | none =>
    refine Text.trimmed_eq_nil_iff.2 fun ch hch => ?_
    rw [text, core, Option.map_none, Option.getD_none, List.append_nil, List.mem_append] at hch
    exact hch.elim (hb ch) (ha ch)

theorem comma_notMem_text {f : Field} (h : ∀ c ∈ f.choice, ',' ∉ c.text) : ',' ∉ f.text := by
  have hcomma : Text.isBlank ',' = false := by decide
  rw [text, List.mem_append, List.mem_append]
  rintro ((hc | hc) | hc)
  · exact Bool.false_ne_true (hcomma.symm.trans (List.all_eq_true.1 f.before_blank _ hc))
  · rw [core] at hc
    cases hf : f.choice with
    | none => simp [hf] at hc
    | some c => exact h c hf (by simpa [hf] using hc)
  · exact Bool.false_ne_true (hcomma.symm.trans (List.all_eq_true.1 f.after_blank _ hc))

end Field

def written (fields : List Field) : String :=
  String.ofList (Text.joined ',' (fields.map Field.text))

def choices (fields : List Field) : List Choice := fields.filterMap Field.choice

namespace Registry
variable {r : Registry} {entries : List (String × Constructor)} {fields : List Field}

theorem filter_trimmed_text (h : ∀ c ∈ choices fields, Text.Solid c.text) :
    ((fields.map Field.text).map Text.trimmed).filter (fun item => decide (item ≠ [])) =
      (choices fields).map Choice.text := by
  induction fields with
  | nil => rfl
  | cons f fields ih =>
    have hrest := ih fun c hc => h c (List.mem_filterMap.2
      ((List.mem_filterMap.1 hc).imp fun g hg => ⟨List.mem_cons_of_mem f hg.1, hg.2⟩))
    have hsolid : ∀ c ∈ f.choice, Text.Solid c.text := fun c hc =>
      h c (List.mem_filterMap.2 ⟨f, List.mem_cons_self, hc⟩)
    rw [List.map_cons, List.map_cons, Field.trimmed_text hsolid, List.filter_cons, hrest, choices,
      Field.core]
    cases hf : f.choice with
    | none => simp [hf, choices]
    | some c => simp [hf, choices, (hsolid c hf).ne_nil]

theorem items_written (hne : choices fields ≠ [])
    (h : ∀ c ∈ choices fields, ',' ∉ c.text ∧ Text.Solid c.text) :
    items (written fields).toList = (choices fields).map Choice.text := by
  have hfields : fields.map Field.text ≠ [] := fun he => hne (by
    rw [List.map_eq_nil_iff.1 he]
    rfl)
  rw [items, written, String.toList_ofList, Text.fields_joined hfields,
    filter_trimmed_text fun c hc => (h c hc).2]
  intro text ht
  obtain ⟨f, hf, rfl⟩ := List.mem_map.1 ht
  exact Field.comma_notMem_text fun c hc => (h c (List.mem_filterMap.2 ⟨f, hf, hc⟩)).1

theorem specs_of_mem_items {config : String} {item : List Char} (h : item ∈ items config.toList) :
    r.specs config = items config.toList := by
  rw [specs, if_neg]
  intro hblank
  have hall := Text.trimmed_eq_nil_iff.1 hblank
  have hcomma : ',' ∉ config.toList := fun hc => by
    have := hall _ hc
    revert this
    decide
  rw [items, Text.fields_of_notMem hcomma, List.map_singleton, hblank] at h
  cases h

theorem configure_of_mem_items {config : String} {item : List Char} {make : Constructor}
    {name : String} (hfind : r.find? name = some make) (h : item ∈ items config.toList) :
    r.configure config = (items config.toList).mapM (r.ruleFor config) := by
  have hne : ¬ r.entries.isEmpty = true := fun he => by
    rw [find?, List.isEmpty_iff.1 he] at hfind
    cases hfind
  rw [configure, if_neg hne, specs_of_mem_items h]

theorem ruleFor_text_cases {c : Choice} (hfind : r.find? c.name = lastUnder entries c.name)
    (hreg : c.name ∈ entries.map Prod.fst) (hcolon : ':' ∉ c.name.toList) (config : String) :
    (∃ rule, c.made entries = some (.ok rule) ∧ r.ruleFor config c.text = .ok rule) ∨
    ∃ cause, c.made entries = some (.error cause) ∧
      r.ruleFor config c.text = .error (.options c.name cause) := by
  obtain ⟨make, hmake⟩ := exists_lastUnder hreg
  simp only [Choice.made, ruleFor, Choice.cut_text hcolon, String.ofList_toList, hfind, hmake,
    Option.map_some]
  cases make c.given with
  | ok rule => exact .inl ⟨rule, rfl, rfl⟩
  | error cause => exact .inr ⟨cause, rfl, rfl⟩

theorem configure_fails {config : String} {item : List Char} (hm : item ∈ items config.toList)
    (hnone : r.find? (String.ofList (Text.cut ':' item).1) = none) :
    ∃ fault, r.configure config = .error fault := by
  rw [configure, specs_of_mem_items hm]
  split
  · exact ⟨_, rfl⟩
  · cases hrun : (items config.toList).mapM (r.ruleFor config) with
    | error fault => exact ⟨fault, rfl⟩
    | ok rules =>
      obtain ⟨rule, -, hrule⟩ := Outcome.exists_of_forall₂_left (Outcome.mapM_eq_ok_iff.1 hrun) hm
      simp only [ruleFor, hnone] at hrule
      cases hrule

/-- A configuration written from choices of registered names gives the rules that the constructors of the
names make of the options, in the order of the choices, or the fault of the first constructor that fails.
A configuration with an item whose name is not registered gives a fault. -/
theorem configure_written (hr : registerAll entries = .ok r) :
    (∀ fields, choices fields ≠ [] →
      (∀ c ∈ choices fields, c.name ∈ entries.map Prod.fst ∧ c.Plain ∧ c.Kept) →
      (∃ rules, r.configure (written fields) = .ok rules ∧
        List.Forall₂ (fun c rule => c.made entries = some (.ok rule)) (choices fields) rules) ∨
      ∃ before c after cause, r.configure (written fields) = .error (.options c.name cause) ∧
        choices fields = before ++ c :: after ∧ c.made entries = some (.error cause) ∧
        ∀ b ∈ before, ∃ rule, b.made entries = some (.ok rule)) ∧
    ∀ config, ∀ field ∈ Text.fields ',' config.toList, Text.trimmed field ≠ [] →
      String.ofList (Text.cut ':' (Text.trimmed field)).1 ∉ entries.map Prod.fst →
      ∃ fault, r.configure config = .error fault := by
  obtain ⟨hmarks, -⟩ := foldlM_register_ok hr
  have hfind := find?_of_registerAll hr
  constructor
  · intro fields hne hc
    have hnames : ∀ c ∈ choices fields, ',' ∉ c.name.toList ∧ ':' ∉ c.name.toList := fun c hm => by
      obtain ⟨entry, he, hname⟩ := List.mem_map.1 (hc c hm).1
      exact hname ▸ hmarks entry he
    have hitems := items_written hne fun c hm =>
      ⟨Choice.comma_notMem_text (hnames c hm).1 (hc c hm).2.1,
        Choice.solid_text (hc c hm).2.1 (hc c hm).2.2⟩
    have hrule : ∀ c ∈ choices fields, _ := fun c hm =>
      ruleFor_text_cases (hfind c.name) (hc c hm).1 (hnames c hm).2 (written fields)
    obtain ⟨first, hfirst⟩ := List.exists_mem_of_ne_nil _ hne
    obtain ⟨make, hmake⟩ := exists_lastUnder (hc first hfirst).1
    rw [configure_of_mem_items ((hfind first.name).trans hmake)
      (hitems ▸ List.mem_map_of_mem hfirst), hitems, List.mapM_map]
    cases hrun : (choices fields).mapM (r.ruleFor (written fields) ∘ Choice.text) with
    | ok rules =>
      refine .inl ⟨rules, rfl, ?_⟩
      refine ((List.forall₂_and_left _ _).2 ⟨hrule, Outcome.mapM_eq_ok_iff.1 hrun⟩).imp ?_
      rintro c rule ⟨⟨rule', hmade, hgives⟩ | ⟨cause, -, hgives⟩, hok⟩
      · rw [hmade, Except.ok.inj (hgives.symm.trans hok)]
      · cases hgives.symm.trans hok
    | error fault =>
      obtain ⟨before, c, after, heq, hbefore, hfault⟩ := Outcome.mapM_eq_error_iff.1 hrun
      rcases hrule c (by simp [heq]) with ⟨rule, -, hgives⟩ | ⟨cause, hmade, hgives⟩
      · cases hgives.symm.trans hfault
      · cases hgives.symm.trans hfault
        refine .inr ⟨before, c, after, cause, rfl, heq, hmade, fun b hb => ?_⟩
        rcases hrule b (by simp [heq, hb]) with ⟨rule, hmade, -⟩ | ⟨cause, -, hgives⟩
        · exact ⟨rule, hmade⟩
        · obtain ⟨rule, hok⟩ := hbefore b hb
          cases hgives.symm.trans hok
  · intro config field hfield hne hname
    exact configure_fails (List.mem_filter.2 ⟨List.mem_map_of_mem hfield, decide_eq_true hne⟩)
      ((hfind _).trans (lastUnder_eq_none hname))

def sampleEntries : List (String × Constructor) :=
  [("mult", makeSlicing), ("indexing", makeSlicing), ("mult", makeFactoring), ("mul", makeSlicing)]

def sampleFields : List Field :=
  [⟨[' '], some ⟨"mult", none⟩, ['\t'], rfl, rfl⟩,
    ⟨[], some ⟨"indexing", some "row"⟩, [], rfl, rfl⟩,
    ⟨[], none, [' '], rfl, rfl⟩,
    ⟨[], some ⟨"mul", some ""⟩, [' '], rfl, rfl⟩]

theorem sampleFields_chosen : ∀ c ∈ choices sampleFields,
    c.name ∈ sampleEntries.map Prod.fst ∧ c.Plain ∧ c.Kept := by
  intro c hc
  rcases List.mem_cons.1 hc with rfl | hc
  · exact ⟨by decide, ⟨by decide, rfl⟩, ⟨rfl, by simp, fun _ => rfl⟩⟩
  rcases List.mem_cons.1 hc with rfl | hc
  · exact ⟨by decide, ⟨by decide, rfl⟩, ⟨rfl, by simp, fun _ => rfl⟩⟩
  rcases List.mem_singleton.1 hc with rfl
  exact ⟨by decide, ⟨by decide, rfl⟩, ⟨rfl, by simp, fun _ => rfl⟩⟩

theorem configure_written_sampleFields : ∃ r, registerAll sampleEntries = .ok r ∧
    r.configure (written sampleFields) =
      .ok [Factoring.rule, Slicing.rule [.row], Slicing.rule [.row, .col]] ∧
    ∃ fault, r.configure "mult,mu" = .error fault := by
  have hr : registerAll sampleEntries = .ok _ := rfl
  obtain ⟨hgives, hfails⟩ := configure_written hr
  refine ⟨_, hr, ?_, hfails "mult,mu" ['m', 'u'] (by decide) (by decide) (by decide)⟩
  rcases hgives sampleFields (by decide) sampleFields_chosen with
    ⟨rules, hrun, hmade⟩ | ⟨before, c, after, cause, -, heq, hmade, -⟩
  · obtain ⟨_, _, h₁, hrest₁, rfl⟩ := List.forall₂_cons_left_iff.1 hmade
    obtain ⟨_, _, h₂, hrest₂, rfl⟩ := List.forall₂_cons_left_iff.1 hrest₁
    obtain ⟨_, _, h₃, hrest₃, rfl⟩ := List.forall₂_cons_left_iff.1 hrest₂
    cases hrest₃
    cases h₁
    cases h₂
    cases h₃
    exact hrun
  · have hc : c ∈ choices sampleFields := by simp [heq]
    rcases List.mem_cons.1 hc with rfl | hc
    · cases hmade
    rcases List.mem_cons.1 hc with rfl | hc
    · cases hmade
    rcases List.mem_singleton.1 hc with rfl
    cases hmade

/-- A registered name that begins with a blank is not found by its own text. -/
theorem configure_misses_padded_name : ∃ r, registerAll [(" a", makeFactoring)] = .ok r ∧
    r.configure " a" = .error (.unknownRule "a" " a" r.sortedNames) :=
  ⟨_, rfl, rfl⟩

end Registry
end Optimizer
end LinearPlan
