import Nyxis.XmlIn

/-!
# XmlTexts — the texts of XML records

Well-nested events are those of a document (`XmlContent.events`).  The loop keeps one key for texts, that of
the element it started last, and forgets it at the end of an element, so that a text behind a child is lost;
CDATA sections are passed over.

* `foldlM_within`, `foldlM_outside`: what the events of some content do in and outside a record.
* `texts_kept_iff`: when the records have all texts.
-/

namespace Nyxis.XmlIn

open Lib Lib.Outcome

/-- What stands between two tags, or in a document: a node and what follows it. -/
inductive XmlContent where
  | nil
  | text (s : String) (rest : XmlContent)
  | cdata (s : String) (rest : XmlContent)
  | empty (tag : String) (attrs : List (String × String)) (rest : XmlContent)
  | element (tag : String) (attrs : List (String × String)) (children rest : XmlContent)
  deriving DecidableEq, Repr

namespace XmlContent

def attrEvents (attrs : List (String × String)) : List XmlAttr := attrs.map fun a => ⟨.ok a.1, .ok a.2⟩

/-- The events of the content. -/
def events : XmlContent → List XmlEvent
  | nil => []
  | text s rest => .text (.ok s) :: rest.events
  | cdata _ rest => .other :: rest.events
  | empty tag attrs rest => .empty (.ok tag) (attrEvents attrs) :: rest.events
  | element tag attrs children rest =>
    .start (.ok tag) (attrEvents attrs) :: (children.events ++ .stop :: rest.events)

/-- How many elements stand within each other at most; those without an end tag do not count. -/
def height : XmlContent → ℕ
  | nil => 0
  | text _ rest | cdata _ rest | empty _ _ rest => rest.height
  | element _ _ children rest => max (children.height + 1) rest.height

/-- The outermost elements with a tag, in document order. -/
def outermost (recordTag : String) : XmlContent → List (List (String × String) × XmlContent)
  | nil => []
  | text _ rest | cdata _ rest => rest.outermost recordTag
  | empty tag attrs rest => if tag == recordTag then (attrs, nil) :: rest.outermost recordTag else rest.outermost recordTag
  | element tag attrs children rest =>
    if tag == recordTag then (attrs, children) :: rest.outermost recordTag
    else children.outermost recordTag ++ rest.outermost recordTag

/-- The field of an attribute. -/
def attrFields (mode : XmlAttrsMode) (attrs : List (String × String)) : List (String × String) :=
  attrs.map fun a => (match mode with
    | .asFields => a.1
    | .prefixed => "@" ++ a.1, a.2)

/-- The fields of the attributes in the content. -/
def attrsWithin (mode : XmlAttrsMode) : XmlContent → List (String × String)
  | nil => []
  | text _ rest | cdata _ rest => rest.attrsWithin mode
  | empty _ attrs rest => attrFields mode attrs ++ rest.attrsWithin mode
  | element _ attrs children rest => attrFields mode attrs ++ children.attrsWithin mode ++ rest.attrsWithin mode

def trimmed (s : String) : String := String.ofList (trim s.toList)

/-- The field of a text under a path, unless it is blank. -/
def textField (path : List String) (s : String) : List (String × String) :=
  if (trimmed s).isEmpty then [] else [(pathKey path, trimmed s)]

/-- Every text in the content of the element that the path leads to, under the path of its own element. -/
def texts (path : List String) : XmlContent → List (String × String)
  | nil => []
  | text s rest | cdata s rest => textField path s ++ rest.texts path
  | empty _ _ rest => rest.texts path
  | element tag _ children rest => children.texts (path ++ [tag]) ++ rest.texts path

/-- The texts in the children of a record. -/
def recordTexts : XmlContent → List (String × String)
  | nil => []
  | text _ rest | cdata _ rest | empty _ _ rest => rest.recordTexts
  | element tag _ children rest => children.texts [tag] ++ rest.recordTexts

/-- A text that is not blank stands behind a child of its element, or a CDATA section that is not blank
anywhere.  The first argument says that no child came yet. -/
def loses : Bool → XmlContent → Bool
  | _, nil => false
  | fresh, text s rest => (!fresh && !(trimmed s).isEmpty) || rest.loses fresh
  | fresh, cdata s rest => !(trimmed s).isEmpty || rest.loses fresh
  | fresh, empty _ _ rest => rest.loses fresh
  | _, element _ _ children rest => children.loses true || rest.loses false

/-- The same in the children of a record. -/
def recordLoses : XmlContent → Bool
  | nil => false
  | text _ rest | cdata _ rest | empty _ _ rest => rest.recordLoses
  | element _ _ children rest => children.loses true || rest.recordLoses

/-- The texts that the loop keeps, from one node on. -/
def kept (path : List String) : Bool → XmlContent → List (String × String)
  | _, nil => []
  | fresh, text s rest => (if fresh then textField path s else []) ++ rest.kept path fresh
  | fresh, cdata _ rest => rest.kept path fresh
  | fresh, empty _ _ rest => rest.kept path fresh
  | _, element tag _ children rest => children.kept (path ++ [tag]) true ++ rest.kept path false

/-- The fields that the loop adds. -/
def fields (mode : XmlAttrsMode) (path : List String) : Bool → XmlContent → List (String × String)
  | _, nil => []
  | fresh, text s rest => (if fresh then textField path s else []) ++ rest.fields mode path fresh
  | fresh, cdata _ rest => rest.fields mode path fresh
  | fresh, empty _ attrs rest => attrFields mode attrs ++ rest.fields mode path fresh
  | _, element tag attrs children rest =>
    attrFields mode attrs ++ children.fields mode (path ++ [tag]) true ++ rest.fields mode path false

end XmlContent

open XmlContent

/-! ## The loop -/

theorem collectAttrs_events (mode : XmlAttrsMode) (attrs : List (String × String)) :
    collectAttrs mode (attrEvents attrs) = .ok (attrFields mode attrs) := by
  induction attrs with
  | nil => rfl
  | cons a attrs ih =>
    rw [attrEvents, List.map_cons, collectAttrs, List.mapM_cons]
    rw [collectAttrs, attrEvents] at ih
    rw [ih]
    rfl

section Loop

variable {args : XmlArgs} {recordTag : String}

/-- Within a record the content adds its fields, under the path of the element it stands in. -/
theorem foldlM_within (c : XmlContent) : ∀ {depth recordDepth : ℕ} {F : List (String × String)} {path : List String}
    {R : List (List (String × String))} (fresh : Bool), recordDepth ≤ depth →
    depth + c.height ≤ min args.xmlMaxDepth args.maxDepth → ∃ key, (fresh = false → key = none) ∧
      c.events.foldlM (parseEvent args recordTag)
          ⟨depth, true, recordDepth, F, path, if fresh then some (pathKey path) else none, R⟩ =
        .ok ⟨depth, true, recordDepth, F ++ c.fields args.xmlAttrs path fresh, path, key, R⟩ := by
  induction c with
  | nil =>
    intro depth recordDepth F path R fresh hdepth hlimit
    refine ⟨if fresh then some (pathKey path) else none, fun hf => by rw [hf]; rfl, ?_⟩
    rw [fields, List.append_nil]
    rfl
  | text content rest ih =>
    intro depth recordDepth F path R fresh hdepth hlimit
    have hstep : parseEvent args recordTag ⟨depth, true, recordDepth, F, path, if fresh then some (pathKey path) else none, R⟩
        (.text (.ok content)) = .ok ⟨depth, true, recordDepth, F ++ if fresh then textField path content else [], path,
          if fresh then some (pathKey path) else none, R⟩ := by
      cases fresh with
      | false =>
        rw [if_neg Bool.false_ne_true, if_neg Bool.false_ne_true, List.append_nil]
        rfl
      | true =>
        rw [if_pos rfl, if_pos rfl, textField, trimmed, parseEvent, decoded, if_pos rfl, ok_bind]
        dsimp only
        split
        · rw [List.append_nil]
        · rfl
    obtain ⟨key, hfresh, hrest⟩ := ih fresh hdepth hlimit
    refine ⟨key, hfresh, ?_⟩
    rw [events, List.foldlM_cons, hstep, ok_bind, hrest, fields, List.append_assoc]
  | cdata content rest ih =>
    intro depth recordDepth F path R fresh hdepth hlimit
    exact ih fresh hdepth hlimit
  | empty tag attrs rest ih =>
    intro depth recordDepth F path R fresh hdepth hlimit
    have hstep : ∀ key, parseEvent args recordTag ⟨depth, true, recordDepth, F, path, key, R⟩
        (.empty (.ok tag) (attrEvents attrs)) =
          .ok ⟨depth, true, recordDepth, F ++ attrFields args.xmlAttrs attrs, path, key, R⟩ := by
      intro key
      rw [parseEvent, decoded, ok_bind, Bool.not_true, Bool.false_and, if_neg Bool.false_ne_true, if_pos rfl,
        collectAttrs_events, ok_bind]
    obtain ⟨key, hfresh, hrest⟩ := ih fresh hdepth hlimit
    refine ⟨key, hfresh, ?_⟩
    rw [events, List.foldlM_cons, hstep, ok_bind, hrest, fields, List.append_assoc]
  | element tag attrs children rest ihc ihr =>
    intro depth recordDepth F path R fresh hdepth hlimit
    rw [height] at hlimit
    have hstart : ∀ key, parseEvent args recordTag ⟨depth, true, recordDepth, F, path, key, R⟩
        (.start (.ok tag) (attrEvents attrs)) = .ok ⟨depth + 1, true, recordDepth, F ++ attrFields args.xmlAttrs attrs,
          path ++ [tag], some (pathKey (path ++ [tag])), R⟩ := by
      intro key
      rw [parseEvent]
      dsimp only
      rw [ensure_of (by omega), ok_bind, decoded, ok_bind, Bool.not_true, Bool.false_and, if_neg Bool.false_ne_true,
        if_pos rfl, collectAttrs_events, ok_bind]
    have hstop : ∀ F key, parseEvent args recordTag ⟨depth + 1, true, recordDepth, F, path ++ [tag], key, R⟩ .stop =
        .ok ⟨depth, true, recordDepth, F, path, none, R⟩ := by
      intro F key
      rw [parseEvent]
      dsimp only
      -- the element is not the record, which started further out
      rw [if_neg (by omega), if_pos ⟨rfl, List.append_ne_nil_of_right_ne_nil _ (List.cons_ne_nil _ _)⟩, List.dropLast_concat,
        Nat.add_sub_cancel]
    obtain ⟨key, -, hchildren⟩ := @ihc (depth + 1) recordDepth (F ++ attrFields args.xmlAttrs attrs) (path ++ [tag]) R true
      (by omega) (by omega)
    obtain ⟨key', hfresh, hrest⟩ := @ihr depth recordDepth
      (F ++ attrFields args.xmlAttrs attrs ++ children.fields args.xmlAttrs (path ++ [tag]) true) path R false hdepth (by omega)
    rw [if_pos rfl] at hchildren
    rw [if_neg Bool.false_ne_true] at hrest
    refine ⟨key', fun _ => hfresh rfl, ?_⟩
    rw [events, List.foldlM_cons, hstart, ok_bind, List.foldlM_append, hchildren, ok_bind, List.foldlM_cons, hstop, ok_bind,
      hrest, fields]
    simp only [List.append_assoc]

/-- Outside a record the content adds its records. -/
theorem foldlM_outside (c : XmlContent) : ∀ {depth recordDepth : ℕ} {F : List (String × String)} {path : List String}
    {R : List (List (String × String))}, depth + c.height ≤ min args.xmlMaxDepth args.maxDepth →
    ∃ recordDepth' F' path', c.events.foldlM (parseEvent args recordTag) ⟨depth, false, recordDepth, F, path, none, R⟩ =
      .ok ⟨depth, false, recordDepth', F', path', none, R ++ (c.outermost recordTag).map fun r =>
        attrFields args.xmlAttrs r.1 ++ r.2.fields args.xmlAttrs [] false⟩ := by
  induction c with
  | nil =>
    intro depth recordDepth F path R hlimit
    refine ⟨recordDepth, F, path, ?_⟩
    rw [outermost, List.map_nil, List.append_nil]
    rfl
  | text content rest ih =>
    intro depth recordDepth F path R hlimit
    exact ih hlimit
  | cdata content rest ih =>
    intro depth recordDepth F path R hlimit
    exact ih hlimit
  | empty tag attrs rest ih =>
    intro depth recordDepth F path R hlimit
    rw [events, List.foldlM_cons, parseEvent, decoded, ok_bind, Bool.not_false, Bool.true_and, outermost]
    by_cases htag : (tag == recordTag) = true
    · obtain ⟨recordDepth', F', path', hrest⟩ := @ih depth recordDepth F path (R ++ [attrFields args.xmlAttrs attrs]) hlimit
      refine ⟨recordDepth', F', path', ?_⟩
      rw [if_pos htag, if_pos htag, collectAttrs_events, ok_bind, ok_bind, hrest, List.map_cons, fields, List.append_nil,
        List.append_assoc, List.singleton_append]
    · rw [if_neg htag, if_neg htag, if_neg Bool.false_ne_true, ok_bind]
      exact ih hlimit
  | element tag attrs children rest ihc ihr =>
    intro depth recordDepth F path R hlimit
    rw [height] at hlimit
    rw [events, List.foldlM_cons, parseEvent]
    dsimp only
    rw [ensure_of (by omega), ok_bind, decoded, ok_bind, Bool.not_false, Bool.true_and, outermost]
    by_cases htag : (tag == recordTag) = true
    · obtain ⟨key, hnone, hchildren⟩ := @foldlM_within args recordTag children (depth + 1) (depth + 1) (attrFields args.xmlAttrs attrs) [] R
        false (Nat.le_refl _) (by omega)
      obtain rfl := hnone rfl
      rw [if_neg Bool.false_ne_true] at hchildren
      obtain ⟨recordDepth', F', path', hrest⟩ := @ihr depth (depth + 1) [] []
        (R ++ [attrFields args.xmlAttrs attrs ++ children.fields args.xmlAttrs [] false]) (by omega)
      refine ⟨recordDepth', F', path', ?_⟩
      rw [if_pos htag, if_pos htag, collectAttrs_events, ok_bind, ok_bind, List.foldlM_append, hchildren, ok_bind,
        List.foldlM_cons, parseEvent]
      dsimp only
      rw [if_pos ⟨rfl, rfl⟩, ok_bind, Nat.add_sub_cancel, hrest, List.map_cons, List.append_assoc, List.singleton_append]
    · obtain ⟨recordDepth₁, F₁, path₁, hchildren⟩ := @ihc (depth + 1) recordDepth F path R (by omega)
      obtain ⟨recordDepth', F', path', hrest⟩ := @ihr depth recordDepth₁ F₁ path₁ (R ++ (children.outermost recordTag).map fun r =>
        attrFields args.xmlAttrs r.1 ++ r.2.fields args.xmlAttrs [] false) (by omega)
      refine ⟨recordDepth', F', path', ?_⟩
      rw [if_neg htag, if_neg htag, if_neg Bool.false_ne_true, ok_bind, List.foldlM_append, hchildren, ok_bind, List.foldlM_cons,
        parseEvent]
      dsimp only
      rw [if_neg (fun h => Bool.false_ne_true h.1), if_neg (fun h => Bool.false_ne_true h.1), ok_bind, Nat.add_sub_cancel, hrest,
        List.map_append, List.append_assoc]

/-- One record for every outermost element with the tag, with the fields that the loop adds. -/
theorem parseRecords_events (doc : XmlContent) (hdepth : doc.height ≤ min args.xmlMaxDepth args.maxDepth) :
    parseRecords args recordTag doc.events = .ok ((doc.outermost recordTag).map fun r =>
      attrFields args.xmlAttrs r.1 ++ r.2.fields args.xmlAttrs [] false) := by
  obtain ⟨_, _, _, h⟩ := @foldlM_outside args recordTag doc 0 0 [] [] [] (by omega)
  rw [parseRecords, ParseState.new, h, ok_bind, List.nil_append]

end Loop

/-! ## What is lost -/

/-- The fields are those of the attributes and the texts that are kept. -/
theorem fields_perm (mode : XmlAttrsMode) (c : XmlContent) : ∀ (path : List String) (fresh : Bool),
    (c.fields mode path fresh).Perm (c.attrsWithin mode ++ c.kept path fresh) := by
  induction c with
  | nil => exact fun _ _ => List.Perm.refl _
  | text s rest ih =>
    intro path fresh
    exact ((ih path fresh).append_left _).trans (List.perm_append_comm_assoc _ _ _)
  | cdata s rest ih => exact ih
  | empty tag attrs rest ih =>
    intro path fresh
    rw [fields, attrsWithin, kept, List.append_assoc]
    exact (ih path fresh).append_left _
  | element tag attrs children rest ihc ihr =>
    intro path fresh
    rw [fields, attrsWithin, kept, List.append_assoc, List.append_assoc, List.append_assoc]
    refine List.Perm.append_left _ ?_
    have hboth := (ihc (path ++ [tag]) true).append (ihr path false)
    rw [List.append_assoc] at hboth
    exact hboth.trans (List.Perm.append_left _ (List.perm_append_comm_assoc _ _ _))

theorem textField_eq_nil {path : List String} {s : String} : textField path s = [] ↔ (trimmed s).isEmpty = true := by
  rw [textField]
  split
  · rename_i h
    exact ⟨fun _ => h, fun _ => rfl⟩
  · rename_i h
    exact ⟨fun hnil => absurd hnil (List.cons_ne_nil _ _), fun hempty => absurd hempty h⟩

theorem kept_sublist (c : XmlContent) : ∀ (path : List String) (fresh : Bool), (c.kept path fresh).Sublist (c.texts path) := by
  induction c with
  | nil => exact fun _ _ => List.Sublist.refl _
  | text s rest ih =>
    intro path fresh
    rw [kept, texts]
    refine List.Sublist.append ?_ (ih path fresh)
    cases fresh with
    | true => exact List.Sublist.refl _
    | false => exact List.nil_sublist _
  | cdata s rest ih =>
    intro path fresh
    exact (ih path fresh).trans (List.sublist_append_right _ _)
  | empty tag attrs rest ih => exact ih
  | element tag attrs children rest ihc ihr =>
    intro path fresh
    exact (ihc _ _).append (ihr _ _)

/-- Sublists whose concatenation is as long as that of the lists are the lists. -/
theorem append_sublist_eq_iff {α : Type} {a a' b b' : List α} (ha : a.Sublist a') (hb : b.Sublist b') :
    a ++ b = a' ++ b' ↔ a = a' ∧ b = b' := by
  constructor
  · intro h
    have hlen := congrArg List.length h
    rw [List.length_append, List.length_append] at hlen
    have hla := ha.length_le
    have hlb := hb.length_le
    exact ⟨ha.eq_of_length (by omega), hb.eq_of_length (by omega)⟩
  · rintro ⟨rfl, rfl⟩
    rfl

theorem kept_eq_iff (c : XmlContent) : ∀ (path : List String) (fresh : Bool),
    c.kept path fresh = c.texts path ↔ c.loses fresh = false := by
  induction c with
  | nil => exact fun _ _ => ⟨fun _ => rfl, fun _ => rfl⟩
  | text s rest ih =>
    intro path fresh
    have hkept : ((if fresh then textField path s else []) : List (String × String)).Sublist (textField path s) := by
      cases fresh with
      | true => exact List.Sublist.refl _
      | false => exact List.nil_sublist _
    have hhead : ((if fresh then textField path s else []) : List (String × String)) = textField path s ↔
        (!fresh && !(trimmed s).isEmpty) = false := by
      cases fresh with
      | true =>
        rw [if_pos rfl, Bool.not_true, Bool.false_and]
        exact iff_of_true rfl rfl
      | false =>
        rw [if_neg Bool.false_ne_true, Bool.not_false, Bool.true_and, Bool.not_eq_false', ← @textField_eq_nil path s]
        exact eq_comm
    rw [kept, texts, append_sublist_eq_iff hkept (kept_sublist rest path fresh), ih path fresh, loses, Bool.or_eq_false_iff, hhead]
  | cdata s rest ih =>
    intro path fresh
    have happend := append_sublist_eq_iff (List.nil_sublist (textField path s)) (kept_sublist rest path fresh)
    rw [List.nil_append] at happend
    rw [kept, texts, happend, ih path fresh, loses, Bool.or_eq_false_iff, eq_comm, textField_eq_nil, Bool.not_eq_false']
  | empty tag attrs rest ih => exact ih
  | element tag attrs children rest ihc ihr =>
    intro path fresh
    rw [kept, texts, append_sublist_eq_iff (kept_sublist _ _ _) (kept_sublist _ _ _), ihc, ihr, loses, Bool.or_eq_false_iff]

/-- The texts in a record itself are dropped, so that only those in its children count. -/
theorem kept_record_iff (c : XmlContent) : (c.kept [] false).Sublist c.recordTexts ∧
    (c.kept [] false = c.recordTexts ↔ c.recordLoses = false) := by
  induction c with
  | nil => exact ⟨List.Sublist.refl _, fun _ => rfl, fun _ => rfl⟩
  | text s rest ih | cdata s rest ih => exact ih
  | empty tag attrs rest ih => exact ih
  | element tag attrs children rest ihc ihr =>
    rw [kept, recordTexts, List.nil_append]
    refine ⟨(kept_sublist _ _ _).append ihr.1, ?_⟩
    rw [append_sublist_eq_iff (kept_sublist _ _ _) ihr.1, kept_eq_iff, ihr.2, recordLoses, Bool.or_eq_false_iff]

/-- The records of a document: one for every outermost element with the tag, in document order, that has
the attributes in the element and every text in its children, under its path, and nothing else. -/
def KeepsTexts (args : XmlArgs) (recordTag : String) (doc : XmlContent) : Prop :=
  ∃ records, parseRecords args recordTag doc.events = .ok records ∧ List.Forall₂ (fun r (fields : List (String × String)) =>
    fields.Perm (attrFields args.xmlAttrs r.1 ++ r.2.attrsWithin args.xmlAttrs ++ r.2.recordTexts))
      (doc.outermost recordTag) records

/-- The records have all texts exactly if, in the children of records, no text that is not blank stands
behind a child of its own element and no CDATA section that is not blank anywhere. -/
theorem texts_kept_iff (args : XmlArgs) (recordTag : String) (doc : XmlContent)
    (hdepth : doc.height ≤ min args.xmlMaxDepth args.maxDepth) :
    KeepsTexts args recordTag doc ↔ ∀ r ∈ doc.outermost recordTag, r.2.recordLoses = false := by
  have hrecord : ∀ r : List (String × String) × XmlContent,
      (attrFields args.xmlAttrs r.1 ++ r.2.fields args.xmlAttrs [] false).Perm
        (attrFields args.xmlAttrs r.1 ++ r.2.attrsWithin args.xmlAttrs ++ r.2.recordTexts) ↔ r.2.recordLoses = false := by
    intro r
    obtain ⟨hsub, hiff⟩ := kept_record_iff r.2
    have hfields := fields_perm args.xmlAttrs r.2 [] false
    rw [List.append_assoc, List.perm_append_left_iff, ← hiff]
    constructor
    · intro h
      have hlen := (hfields.symm.trans h).length_eq
      rw [List.length_append, List.length_append] at hlen
      exact hsub.eq_of_length (by omega)
    · intro h
      rwa [h] at hfields
  rw [KeepsTexts, parseRecords_events doc hdepth]
  constructor
  · rintro ⟨records, heq, hall⟩ r hr
    cases heq
    rw [List.forall₂_map_right_iff, List.forall₂_same] at hall
    exact (hrecord r).mp (hall r hr)
  · intro h
    refine ⟨_, rfl, ?_⟩
    rw [List.forall₂_map_right_iff, List.forall₂_same]
    exact fun r hr => (hrecord r).mpr (h r hr)

/-- Depths up to 64, errors at conflicts, the attributes as fields. -/
def plainXml : XmlArgs := ⟨⟨.error, false, 64⟩, some "r", .asFields, 64⟩

/-- Both the text in front of a child and the one in the child are kept. -/
theorem texts_kept_front : KeepsTexts plainXml "r" (.element "r" [("id", "1")]
    (.element "a" [] (.text "x" (.element "b" [] (.text "y" .nil) .nil)) .nil) .nil) :=
  (texts_kept_iff _ _ _ (by decide)).mpr (by decide)

/-- The text behind the child is lost. -/
theorem texts_lost_behind : ¬ KeepsTexts plainXml "r" (.element "r" []
    (.element "a" [] (.text "x" (.element "b" [] .nil (.text "y" .nil))) .nil) .nil) := by
  rintro ⟨records, hrecords, hall⟩
  have hone : parseRecords plainXml "r" (XmlContent.events (.element "r" []
      (.element "a" [] (.text "x" (.element "b" [] .nil (.text "y" .nil))) .nil) .nil)) = .ok [[("a", "x")]] := by decide
  rw [hone] at hrecords
  cases hrecords
  cases hall with
  | cons h _ => exact absurd h.length_eq (by decide)

end Nyxis.XmlIn
