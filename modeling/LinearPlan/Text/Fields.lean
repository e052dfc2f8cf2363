/-!
# Fields of a text

A text is cut at every occurrence of a separator character, so `n` separators give `n + 1` fields,
some of them possibly empty. Blanks are the characters with the white-space property; trimming
removes them from both ends.
-/
namespace LinearPlan.Text

/-- The fields of a text between the separators. There is always at least one. -/
def fields (sep : Char) : List Char → List (List Char)
  | [] => [[]]
  | c :: rest =>
    if c = sep then [] :: fields sep rest
    else match fields sep rest with
      | [] => [[c]]
      | field :: others => (c :: field) :: others

def joined (sep : Char) : List (List Char) → List Char
  | [] => []
  | [field] => field
  | field :: others => field ++ sep :: joined sep others

/-- The text before the first separator, and the text after it: empty if there is none. -/
def cut (sep : Char) (text : List Char) : List Char × List Char :=
  (text.takeWhile (· != sep), (text.dropWhile (· != sep)).drop 1)

def blanks : List Nat :=
  [0x9, 0xa, 0xb, 0xc, 0xd, 0x20, 0x85, 0xa0, 0x1680, 0x2000, 0x2001, 0x2002, 0x2003, 0x2004,
    0x2005, 0x2006, 0x2007, 0x2008, 0x2009, 0x200a, 0x2028, 0x2029, 0x202f, 0x205f, 0x3000]

def isBlank (c : Char) : Bool := blanks.contains c.toNat

def trimmed (text : List Char) : List Char :=
  ((text.dropWhile isBlank).reverse.dropWhile isBlank).reverse

theorem fields_ne_nil (sep : Char) (text : List Char) : fields sep text ≠ [] := by
  induction text with
  | nil => exact List.cons_ne_nil _ _
  | cons c rest ih =>
    unfold fields
    split
    · exact List.cons_ne_nil _ _
    · split <;> exact List.cons_ne_nil _ _

theorem fields_cons_of_ne {sep c : Char} (h : c ≠ sep) {rest field : List Char}
    {others : List (List Char)} (hr : fields sep rest = field :: others) :
    fields sep (c :: rest) = (c :: field) :: others := by
  rw [fields, if_neg h, hr]

theorem sep_notMem_of_mem_fields {sep : Char} {text field : List Char}
    (h : field ∈ fields sep text) : sep ∉ field := by
  induction text generalizing field with
  | nil =>
    rw [fields, List.mem_singleton] at h
    rw [h]
    exact List.not_mem_nil
  | cons c rest ih =>
    by_cases hc : c = sep
    · rw [fields, if_pos hc] at h
      rcases List.mem_cons.1 h with rfl | h
      · exact List.not_mem_nil
      · exact ih h
    · obtain ⟨first, others, hr⟩ := List.exists_cons_of_ne_nil (fields_ne_nil sep rest)
      rw [fields_cons_of_ne hc hr] at h
      rcases List.mem_cons.1 h with rfl | h
      · intro hm
        rcases List.mem_cons.1 hm with hs | hm
        · exact hc hs.symm
        · exact ih (hr ▸ List.mem_cons_self) hm
      · exact ih (hr ▸ List.mem_cons_of_mem _ h)

theorem joined_cons_cons (sep : Char) (field : List Char) {others : List (List Char)}
    (h : others ≠ []) : joined sep (field :: others) = field ++ sep :: joined sep others := by
  cases others with
  | nil => exact absurd rfl h
  | cons _ _ => rfl

theorem joined_fields (sep : Char) (text : List Char) : joined sep (fields sep text) = text := by
  induction text with
  | nil => rfl
  | cons c rest ih =>
    by_cases hc : c = sep
    · rw [fields, if_pos hc, joined_cons_cons sep [] (fields_ne_nil sep rest), ih, hc]
      rfl
    · obtain ⟨first, others, hr⟩ := List.exists_cons_of_ne_nil (fields_ne_nil sep rest)
      rw [fields_cons_of_ne hc hr]
      rw [hr] at ih
      cases others with
      | nil =>
        rw [joined] at ih ⊢
        rw [ih]
      | cons _ _ =>
        rw [joined_cons_cons sep _ (List.cons_ne_nil _ _)] at ih ⊢
        rw [List.cons_append, ih]

theorem fields_of_notMem {sep : Char} {text : List Char} (h : sep ∉ text) :
    fields sep text = [text] := by
  induction text with
  | nil => rfl
  | cons c rest ih =>
    exact fields_cons_of_ne (fun hc : c = sep => h (hc ▸ List.mem_cons_self))
      (ih fun hm => h (List.mem_cons_of_mem _ hm))

theorem fields_append_cons {sep : Char} {field : List Char} (h : sep ∉ field)
    (rest : List Char) : fields sep (field ++ sep :: rest) = field :: fields sep rest := by
  induction field with
  | nil => rw [List.nil_append, fields, if_pos rfl]
  | cons c field ih =>
    exact fields_cons_of_ne (fun hc : c = sep => h (hc ▸ List.mem_cons_self))
      (ih fun hm => h (List.mem_cons_of_mem _ hm))

theorem fields_joined {sep : Char} {parts : List (List Char)} (hne : parts ≠ [])
    (h : ∀ field ∈ parts, sep ∉ field) : fields sep (joined sep parts) = parts := by
  induction parts with
  | nil => exact absurd rfl hne
  | cons field others ih =>
    have hf : sep ∉ field := h field List.mem_cons_self
    cases others with
    | nil => exact fields_of_notMem hf
    | cons next others =>
      rw [joined_cons_cons sep field (List.cons_ne_nil _ _), fields_append_cons hf,
        ih (List.cons_ne_nil _ _) fun x hx => h x (List.mem_cons_of_mem _ hx)]

end LinearPlan.Text
