import TreeInsertion.Grammar.Printer
import TreeInsertion.Grammar.Reader.Statement
import TreeInsertion.Proofs.Grammar.Tokens
import TreeInsertion.Proofs.Spine

/-!
# Statements and their text

The text of a list is that of its items, each with its separator before it, and it is read
item by item, whatever layout stands between them.  From the items up to the statements,
all that is written is read back.
-/

namespace TreeInsertion

/-! ## Lists of items -/

theorem after?_of_opens {close : Char} (hquote : close ≠ '"') (hname : isNameChar close = false)
    {s : List Char} (h : Opens s) : after? close s = none := by
  rw [after?, h.skipLayout]
  obtain ⟨c, rest, rfl, rfl | hc⟩ := h
  · exact if_neg hquote.symm
  · exact if_neg (ne_of_isNameChar hc hname)

section

variable {α : Type} {close : Char} {item : List Char → Reading α} {shrinks : Shrinks item}

theorem readUntil_close {s rest : List Char} (h : after? close s = some rest) :
    readUntil close item shrinks s = .ok ([], rest) := by
  rw [readUntil, h]

theorem readUntil_item {s rest tail : List Char} {a : α} {as : List α}
    (hafter : after? close s = none) (hitem : item (skipLayout s) = .ok (a, rest))
    (hrest : readUntil close item shrinks rest = .ok (as, tail)) :
    readUntil close item shrinks s = .ok (a :: as, tail) := by
  rw [readUntil, hafter]
  dsimp only
  split
  · rename_i e he
    rw [hitem] at he
    cases he
  · rename_i b rest' hb
    rw [hitem] at hb
    cases hb
    rw [hrest]

/-- Whether the text is that of an item, which leaves nothing but layout before the rest. -/
def Spells (close : Char) (item : List Char → Reading α) (text : List Char) (a : α) : Prop :=
  ∀ rest, Delimited rest → after? close (text ++ rest) = none ∧
    ∃ tail, item (skipLayout (text ++ rest)) = .ok (a, tail) ∧ skipLayout tail = skipLayout rest

theorem spells_of_opens (hquote : close ≠ '"') (hname : isNameChar close = false)
    {text : List Char} {a : α} (hopens : Opens text)
    (hreads : ∀ rest, Delimited rest → ∃ tail, item (text ++ rest) = .ok (a, tail) ∧
      skipLayout tail = skipLayout rest) :
    Spells close item text a := by
  intro rest hrest
  have hopens' := hopens.append rest
  refine ⟨after?_of_opens hquote hname hopens', ?_⟩
  rw [hopens'.skipLayout]
  exact hreads rest hrest

theorem Spells.blank {text : List Char} {a : α} (h : Spells close item text a) :
    Spells close item (' ' :: text) a :=
  h

theorem delimited_texts {text : α → List Char} {items : List α} {closing : List Char}
    (htexts : ∀ a ∈ items, ∀ s, Delimited (text a ++ s)) (hclosing : Delimited closing) :
    Delimited (items.flatMap text ++ closing) := by
  cases items with
  | nil => exact hclosing
  | cons a as =>
      rw [List.flatMap_cons, List.append_assoc]
      exact htexts a List.mem_cons_self _

/-- A list is read back if each of its items is. -/
theorem readUntil_texts {text : α → List Char} {items : List α} {closing rest : List Char}
    (hitems : ∀ a ∈ items, Spells close item (text a) a)
    (htexts : ∀ a ∈ items, ∀ s, Delimited (text a ++ s)) (hclosing : Delimited closing)
    (hclose : after? close closing = some rest) {s : List Char}
    (hs : skipLayout s = skipLayout (items.flatMap text ++ closing)) :
    readUntil close item shrinks s = .ok (items, rest) := by
  -- An item may leave layout of its own, so the text read next is known up to layout only.
  induction items generalizing s with
  | nil =>
      refine readUntil_close ?_
      rw [after?, hs]
      exact hclose
  | cons a as ih =>
      obtain ⟨ha, has⟩ := List.forall_mem_cons.1 hitems
      obtain ⟨-, htexts'⟩ := List.forall_mem_cons.1 htexts
      rw [List.flatMap_cons, List.append_assoc] at hs
      obtain ⟨hafter, tail, hitem, htail⟩ := ha _ (delimited_texts htexts' hclosing)
      rw [after?, ← hs] at hafter
      rw [← hs] at hitem
      exact readUntil_item hafter hitem (ih has htexts' htail)

/-- A list of tokens with blanks before them is read back. -/
theorem readUntil_tokens {text : α → List Char} {items : List α} {closing rest : List Char}
    (hquote : close ≠ '"') (hname : isNameChar close = false)
    (hopens : ∀ a ∈ items, Opens (text a))
    (hreads : ∀ a ∈ items, ∀ s, Delimited s → item (text a ++ s) = .ok (a, s))
    (hclosing : Delimited closing) (hclose : after? close closing = some rest) {s : List Char}
    (hs : skipLayout s = skipLayout ((items.flatMap fun a => ' ' :: text a) ++ closing)) :
    readUntil close item shrinks s = .ok (items, rest) := by
  have hspells : ∀ a ∈ items, Spells close item (' ' :: text a) a := by
    intro a ha
    refine Spells.blank (spells_of_opens hquote hname (hopens a ha) fun s hs => ?_)
    exact ⟨s, hreads a ha s hs, rfl⟩
  exact readUntil_texts hspells (fun _ _ _ => delimited_blank _) hclosing hclose hs

end

/-! ## Layers -/

structure Layer.Writable (l : Layer) : Prop where
  steps : ∀ i ∈ l.address.path, i < UInt64.size
  parent : ∀ e ∈ l.lhs?, e.role = .nonterminal ∧ IsName e.label
  children : ∀ e ∈ l.rhs, e.Writable

instance (l : Layer) : Decidable l.Writable :=
  decidable_of_iff ((∀ i ∈ l.address.path, i < UInt64.size) ∧
      (∀ e ∈ l.lhs?, e.role = .nonterminal ∧ IsName e.label) ∧ ∀ e ∈ l.rhs, e.Writable)
    ⟨fun ⟨hsteps, hparent, hchildren⟩ => ⟨hsteps, hparent, hchildren⟩,
      fun h => ⟨h.steps, h.parent, h.children⟩⟩

theorem readEntries_render (g : Address) {es : List Entry} (h : ∀ e ∈ es, e.Writable)
    (rest : List Char) : readEntries g ((es.flatMap fun e => ' ' :: e.render.toList) ++
      ';' :: rest) = .ok (es, rest) := by
  refine readUntil_tokens (by decide) (by decide) (fun e he => (h e he).opens) ?_
    (delimited_semicolon rest) rfl rfl
  exact fun e he s hs => within_eq_ok.2 (readEntry_render (h e he) hs)

theorem readLayer_parts {g : Address} (hne : g.path ≠ []) (hsteps : ∀ i ∈ g.path, i < UInt64.size)
    {lhs : String} (hlhs : IsName lhs) {rhs : List Entry} {children rest : List Char}
    (hrhs : readEntries g children = .ok (rhs, rest)) :
    readLayer (g.render.toList ++ ':' :: ' ' :: (lhs.toList ++ ' ' :: '-' :: '>' :: children)) =
      .ok (⟨g, ⟨.nonterminal, lhs⟩ :: rhs⟩, rest) := by
  have hparent := readName_name hlhs (delimited_blank ('-' :: '>' :: children)).endsName
  rw [readLayer, readAddress_render hne hsteps (delimited_colon _)]
  refine bind_eq_ok.2 ⟨_, rfl, bind_eq_ok.2 ⟨_, rfl, ?_⟩⟩
  dsimp only
  rw [skipLayout_opens hlhs.opens, hparent]
  refine bind_eq_ok.2 ⟨_, rfl, bind_eq_ok.2 ⟨_, rfl, ?_⟩⟩
  exact bind_eq_ok.2 ⟨_, hrhs, rfl⟩

/-- A layer is read back up to its semicolon. -/
theorem readLayer_render {l : Layer} (h : l.Writable) (hpath : l.address.path ≠ [])
    (hlhs : ∃ e, l.lhs? = some e) (rest : List Char) :
    readLayer (l.render.toList ++ ';' :: rest) = .ok (l, rest) := by
  obtain ⟨⟨role, label⟩, hlhs⟩ := hlhs
  obtain ⟨rfl, hname⟩ := h.parent _ hlhs
  have htext : l.render.toList ++ ';' :: rest =
      l.address.render.toList ++ ':' :: ' ' :: (label.toList ++ ' ' :: '-' :: '>' ::
        ((l.rhs.flatMap fun e => ' ' :: e.render.toList) ++ ';' :: rest)) := by
    simp [Layer.render, hlhs, Entry.render, String.toList_join, List.flatMap_map]
  have hentries : ⟨.nonterminal, label⟩ :: l.rhs = l.entries := by
    rw [Layer.lhs?] at hlhs
    rw [Layer.rhs, List.drop_one]
    exact List.cons_head?_tail hlhs
  rw [htext, readLayer_parts hpath h.steps hname (readEntries_render l.address h.children rest),
    hentries]

/-! ## Rules -/

/-- The attributes of a rule, all of which are written. -/
def Rule.attributes (r : Rule Float) : List Attribute :=
  .freq r.freq :: .prob r.weight :: (r.spine.map Attribute.spine).toList

def Attribute.render : Attribute → String
  | freq n => "freq " ++ n.repr
  | prob x => "prob " ++ Decimal.render x
  | spine g => "spine " ++ g.render

def Layer.line (l : Layer) : String :=
  "  " ++ l.render ++ ";\n"

/-- The text of a rule behind its keyword. -/
def Rule.body (r : Rule Float) : List Char :=
  r.index.repr.toList ++ ' ' :: '[' ::
    ([' '].intercalate (r.anchors.map fun word => (Word.render word).toList) ++ ']' ::
      ((r.attributes.flatMap fun a => ' ' :: a.render.toList) ++ ' ' :: '\x7b' :: '\n' ::
        ((r.layers.flatMap fun l => l.line.toList) ++ ['\x7d'])))

theorem toList_join_map {α : Type} (f : α → String) (as : List α) :
    (String.join (as.map f)).toList = as.flatMap fun a => (f a).toList := by
  rw [String.toList_join, List.flatMap_map]

theorem Rule.flatMap_attributes (r : Rule Float) :
    (r.attributes.flatMap fun a => ' ' :: a.render.toList) =
      (" freq " ++ r.freq.repr ++ " prob " ++ Decimal.render r.weight ++
        match r.spine with
        | some g => " spine " ++ g.render
        | none => "").toList := by
  rw [attributes, List.flatMap_cons, List.flatMap_cons]
  simp only [Attribute.render, String.toList_append, List.append_assoc, List.cons_append]
  cases r.spine with
  | none => rfl
  | some g =>
      rw [Option.map_some, Option.toList_some, List.flatMap_singleton]
      simp only [String.toList_append]
      rfl

theorem Rule.toList_render (r : Rule Float) :
    r.render.toList = "rule".toList ++ ' ' :: r.body := by
  rw [body, flatMap_attributes, ← toList_join_map]
  unfold render
  simp only [String.toList_append, List.append_assoc, String.toList_intercalate, List.map_map]
  rfl

/--
A rule whose numbers, words and symbols the format can write.

Indices, frequencies and the steps of addresses are words of 64 bits, as the reader has it.
-/
structure Rule.Writable (r : Rule Float) : Prop where
  index : r.index < UInt64.size
  freq : r.freq < UInt64.size
  /-- The weight is a finite number without a sign. -/
  weight : r.weight.toBits.toNat < Decimal.infinity
  anchors : ∀ word ∈ r.anchors, Word.Writable word
  layers : ∀ l ∈ r.layers, l.Writable

instance (r : Rule Float) : Decidable r.Writable :=
  decidable_of_iff (r.index < UInt64.size ∧ r.freq < UInt64.size ∧
      r.weight.toBits.toNat < Decimal.infinity ∧ (∀ word ∈ r.anchors, Word.Writable word) ∧
      ∀ l ∈ r.layers, l.Writable)
    ⟨fun ⟨hindex, hfreq, hweight, hanchors, hlayers⟩ =>
        ⟨hindex, hfreq, hweight, hanchors, hlayers⟩,
      fun h => ⟨h.index, h.freq, h.weight, h.anchors, h.layers⟩⟩

theorem skipLayout_intercalate (texts : List (List Char)) (s : List Char) :
    skipLayout ([' '].intercalate texts ++ s) =
      skipLayout ((texts.flatMap fun text => ' ' :: text) ++ s) := by
  cases texts with
  | nil => rfl
  | cons text more =>
      rw [intercalate_cons]
      rfl

theorem readAnchors_render (index : Nat) {words : List String}
    (h : ∀ word ∈ words, Word.Writable word) (rest : List Char) :
    readAnchors index ([' '].intercalate (words.map fun word => (Word.render word).toList) ++
      ']' :: rest) = .ok (words, rest) := by
  refine readUntil_tokens (by decide) (by decide) (fun word hword => (h word hword).opens) ?_
    ⟨']', rest, rfl, by decide, by decide⟩ rfl ?_
  · exact fun word hword s hs => within_eq_ok.2 (readWord_render (h word hword) hs.endsName)
  · rw [skipLayout_intercalate, List.flatMap_map]

def Attribute.Writable : Attribute → Prop
  | freq n => n < UInt64.size
  | prob x => x.toBits.toNat < Decimal.infinity
  | spine g => g.path ≠ [] ∧ ∀ i ∈ g.path, i < UInt64.size

theorem readAttribute_render (index : Nat) {a : Attribute} (h : a.Writable) {rest : List Char}
    (hrest : Delimited rest) : readAttribute index (a.render.toList ++ rest) = .ok (a, rest) := by
  cases a with
  | freq n =>
      have hname := readName_keyword "freq" (by decide) (n.repr.toList ++ rest)
      have hvalue := readInteger_repr h hrest
      rw [Attribute.render, String.toList_append, List.append_assoc]
      refine bind_eq_ok.2 ⟨_, hname, ?_⟩
      dsimp only
      rw [skipLayout_opens (opens_repr n) rest]
      exact bind_eq_ok.2 ⟨_, hvalue, rfl⟩
  | prob x =>
      have hname := readName_keyword "prob" (by decide) ((Decimal.render x).toList ++ rest)
      have hvalue := readDecimal_render h hrest
      rw [Attribute.render, String.toList_append, List.append_assoc]
      refine bind_eq_ok.2 ⟨_, hname, ?_⟩
      dsimp only
      rw [skipLayout_opens (Decimal.opens_render h) rest]
      exact bind_eq_ok.2 ⟨_, hvalue, rfl⟩
  | spine g =>
      have hname := readName_keyword "spine" (by decide) (g.render.toList ++ rest)
      have hvalue := readAddress_render h.1 h.2 hrest
      rw [Attribute.render, String.toList_append, List.append_assoc]
      refine bind_eq_ok.2 ⟨_, hname, ?_⟩
      dsimp only
      rw [skipLayout_opens (Address.opens h.1) rest]
      exact bind_eq_ok.2 ⟨_, hvalue, rfl⟩

theorem Attribute.opens (a : Attribute) : Opens a.render.toList := by
  cases a with
  | freq n =>
      rw [render, String.toList_append]
      exact Opens.append ⟨'f', _, rfl, .inr (by decide)⟩ _
  | prob x =>
      rw [render, String.toList_append]
      exact Opens.append ⟨'p', _, rfl, .inr (by decide)⟩ _
  | spine g =>
      rw [render, String.toList_append]
      exact Opens.append ⟨'s', _, rfl, .inr (by decide)⟩ _

theorem readAttributes_render (index : Nat) {as : List Attribute} (h : ∀ a ∈ as, a.Writable)
    (rest : List Char) :
    readAttributes index ((as.flatMap fun a => ' ' :: a.render.toList) ++ ' ' :: '\x7b' :: rest) =
      .ok (as, rest) :=
  readUntil_tokens (by decide) (by decide) (fun a _ => a.opens)
    (fun a ha _ hs => readAttribute_render index (h a ha) hs) (delimited_blank _) rfl rfl

theorem Layer.toList_line (l : Layer) :
    l.line.toList = ' ' :: ' ' :: (l.render.toList ++ [';', '\n']) := by
  rw [line, String.toList_append, String.toList_append]
  rfl

theorem Layer.opens {l : Layer} (h : l.address.path ≠ []) : Opens l.render.toList := by
  rw [render, String.toList_append, String.toList_append, String.toList_append, List.append_assoc,
    List.append_assoc]
  exact (Address.opens h).append _

theorem readLayers_render (index : Nat) {ls : List Layer} (h : ∀ l ∈ ls, l.Writable)
    (hpath : ∀ l ∈ ls, l.address.path ≠ []) (hlhs : ∀ l ∈ ls, ∃ e, l.lhs? = some e)
    (rest : List Char) :
    readLayers index ('\n' :: ((ls.flatMap fun l => l.line.toList) ++ '\x7d' :: rest)) =
      .ok (ls, rest) := by
  have hspells : ∀ l ∈ ls, Spells '\x7d' (fun s => within (.body index) (readLayer s))
      l.line.toList l := by
    intro l hl
    rw [Layer.toList_line]
    refine Spells.blank (Spells.blank (spells_of_opens (by decide) (by decide)
      ((Layer.opens (hpath l hl)).append _) ?_))
    intro s hs
    refine ⟨'\n' :: s, within_eq_ok.2 ?_, rfl⟩
    rw [List.append_assoc]
    exact readLayer_render (h l hl) (hpath l hl) (hlhs l hl) ('\n' :: s)
  have hlines : ∀ l ∈ ls, ∀ s, Delimited (l.line.toList ++ s) := by
    intro l _ s
    rw [Layer.toList_line]
    exact delimited_blank _
  exact readUntil_texts hspells hlines ⟨'\x7d', rest, rfl, by decide, by decide⟩ rfl rfl

theorem foldl_attributes (r : Rule Float) (freq : Nat) (weight : Float) :
    r.attributes.foldl Attribute.apply ⟨r.index, r.layers, r.anchors, freq, weight, none⟩ = r := by
  obtain ⟨index, layers, anchors, freq, weight, spine⟩ := r
  cases spine <;> rfl

theorem Rule.Writable.attributes {r : Rule Float} (h : r.Writable) (hchecked : r.Checked) :
    ∀ a ∈ r.attributes, a.Writable := by
  intro a ha
  rcases List.mem_cons.1 ha with rfl | ha
  · exact h.freq
  rcases List.mem_cons.1 ha with rfl | ha
  · exact h.weight
  obtain ⟨g, hspine, rfl⟩ := Option.map_eq_some_iff.1 (Option.mem_toList.1 ha)
  obtain ⟨l, hl, rfl⟩ := hchecked.exists_layer_of_spine hspine
  exact ⟨hchecked.path_ne_nil hl, (h.layers l hl).steps⟩

/-- A rule is read back up to its closing brace. -/
theorem readRule_body {r : Rule Float} (h : r.Writable) (hchecked : r.Checked)
    (rest : List Char) : readRule (r.body ++ rest) = .ok (r, rest) := by
  rw [Rule.body]
  simp only [List.append_assoc, List.cons_append, List.nil_append]
  refine bind_eq_ok.2 ⟨_, within_eq_ok.2 (readInteger_repr h.index (delimited_blank _)), ?_⟩
  refine bind_eq_ok.2 ⟨_, rfl, ?_⟩
  refine bind_eq_ok.2 ⟨_, readAnchors_render r.index h.anchors _, ?_⟩
  refine bind_eq_ok.2 ⟨_, readAttributes_render r.index (h.attributes hchecked) _, ?_⟩
  have hlayers := readLayers_render r.index h.layers (fun _ => hchecked.path_ne_nil)
    (fun _ => hchecked.exists_lhs) rest
  refine bind_eq_ok.2 ⟨_, hlayers, ?_⟩
  dsimp only
  rw [foldl_attributes]
  rfl

end TreeInsertion
