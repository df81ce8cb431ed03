import TypeCorpus.Document

/-! Trees and their events. An element is written as an opening tag, its children one after the
other and a closing tag, or as one empty tag if it has no children. The builder holds what was
written: after some events it has the elements that are open, each with the children that are
finished, and one finished root at most. So a text is a document exactly if its events, those of
comments and the like left out, are those of one tree; every other text is refused, and the first
event that fits no tree, or what is missing at the end, tells why. -/

namespace TypeCorpus

namespace Xml

/-- The events of some elements one after the other. Any name may stand in a closing tag: that it is
the right one has been seen to when the tag was read. -/
inductive Written : List Element → List Event → Prop
  | nil : Written [] []
  | empty (t : Tag) {es : List Element} {s : List Event} (rest : Written es s) :
      Written (.ofTag t :: es) (.empty t :: s)
  | element (t : Tag) (name : String) {children es : List Element} {inner s : List Event}
      (inside : Written children inner) (rest : Written es s) :
      Written (⟨t.name, t.attributes, children⟩ :: es)
        (.opening t :: (inner ++ .closing name :: s))

/-- The events up to a place where elements with these tags are open, the innermost first. Around
the open elements there are finished ones, but no more than one before the outermost. -/
inductive Begun : List Tag → List Event → Prop
  | outside {root : Option Element} {s : List Event} (before : Written root.toList s) : Begun [] s
  | inside (t : Tag) {tags : List Tag} {es : List Element} {s inner : List Event}
      (around : Begun tags s) (within : Written es inner) :
      Begun (t :: tags) (s ++ .opening t :: inner)

namespace Stream

/-- The events that make a tree. -/
def markup (s : Stream) : List Event := s.events.filter (· ≠ .other)

/-- Why a stream is no tree. A closing tag comes where nothing is open; a second element is finished
outside of any; an element, the innermost one, is still open at the end; there was no element; or
reading stopped at a fault, with nothing wrong before it. -/
inductive Rejected (s : Stream) : Error → Prop
  | strayClose {root : Option Element} {p q : List Event} {name : String}
      (before : Written root.toList p) (split : s.markup = p ++ .closing name :: q) :
      Rejected s .strayClose
  | secondRoot {first second : Element} {p q : List Event} (before : Written [first, second] p)
      (split : s.markup = p ++ q) : Rejected s (.secondRoot second.tag)
  | unclosed {t : Tag} {tags : List Tag} (begun : Begun (t :: tags) s.markup)
      (complete : s.fault = none) : Rejected s (.unclosedElement t.name)
  | noRoot (nothing : s.markup = []) (complete : s.fault = none) : Rejected s .noRoot
  | fault {e : Error} {tags : List Tag} (begun : Begun tags s.markup) (stopped : s.fault = some e) :
      Rejected s e

end Stream

/-- The closing tags bear the names of the elements that they close, the innermost open first. -/
def Paired : List String → List Event → Prop
  | _, [] => True
  | opened, .opening t :: s => Paired (t.name :: opened) s
  | opened, .empty _ :: s => Paired opened s
  | opened, .other :: s => Paired opened s
  | [], .closing _ :: _ => False
  | top :: opened, .closing name :: s => name = top ∧ Paired opened s

namespace Written

variable {es es' : List Element} {s s' : List Event}

theorem append (h : Written es s) (h' : Written es' s') : Written (es ++ es') (s ++ s') := by
  induction h with
  | nil => exact h'
  | empty t _ ih => exact .empty t ih
  | element t name inside _ _ ih =>
    simpa using Written.element t name inside ih

theorem nothing (h : Written [] s) : s = [] := by
  cases h with
  | nil => rfl

/-- The events of the first element come before those of the others. -/
theorem exists_append {e : Element} (h : Written (e :: es) s) :
    ∃ p q, s = p ++ q ∧ Written [e] p ∧ Written es q := by
  cases h with
  | @empty t _ q rest => exact ⟨[.empty t], q, rfl, .empty t .nil, rest⟩
  | @element t name children _ inner q inside rest =>
    exact ⟨.opening t :: (inner ++ [.closing name]), q, by simp, .element t name inside .nil, rest⟩

end Written

/-! ### The builder -/

namespace Builder

/-- The builder is where the events lead: its open elements have their tags and their finished
children from the events, and before them there is the root, if one is finished. -/
inductive Holds : Builder → List Event → Prop
  | outside {root : Option Element} {s : List Event} (before : Written root.toList s) :
      Holds ⟨[], root⟩ s
  | inside (t : Tag) {opened children : List Element} {root : Option Element}
      {s inner : List Event} (around : Holds ⟨opened, root⟩ s) (within : Written children inner) :
      Holds ⟨⟨t.name, t.attributes, children⟩ :: opened, root⟩ (s ++ .opening t :: inner)

variable {b b' : Builder} {s : List Event}

theorem run_append (b : Builder) (s s' : List Event) :
    b.run (s ++ s') = b.run s >>= fun b => b.run s' := by
  induction s generalizing b with
  | nil => rfl
  | cons e s ih =>
    rw [List.cons_append, run, run]
    cases b.step e with
    | error e => rfl
    | ok b => exact ih b

/-- Events that make no tree change nothing. -/
theorem run_filter (b : Builder) (s : List Event) : b.run (s.filter (· ≠ .other)) = b.run s := by
  induction s generalizing b with
  | nil => rfl
  | cons e s ih =>
    by_cases h : e = .other
    · subst h
      exact ih b
    · rw [List.filter_cons_of_pos (by simpa using h), run, run]
      cases b.step e with
      | error e => rfl
      | ok b => exact ih b

/-- The events of some elements append these to the children of the innermost open element. -/
theorem run_written {es : List Element} (h : Written es s) (t : Tag) (children : List Element)
    (opened : List Element) (root : Option Element) (more : List Event) :
    run ⟨⟨t.name, t.attributes, children⟩ :: opened, root⟩ (s ++ more) =
      run ⟨⟨t.name, t.attributes, children ++ es⟩ :: opened, root⟩ more := by
  induction h generalizing t children opened more with
  | nil => simp
  | @empty t' es s _ ih =>
    have hstep : run ⟨⟨t.name, t.attributes, children⟩ :: opened, root⟩ (.empty t' :: (s ++ more)) =
        run ⟨⟨t.name, t.attributes, children ++ [.ofTag t']⟩ :: opened, root⟩ (s ++ more) := rfl
    rw [List.cons_append, hstep, ih, List.append_assoc, List.singleton_append]
  | @element t' name children' es inner s _ _ ihInside ih =>
    have hopen : run ⟨⟨t.name, t.attributes, children⟩ :: opened, root⟩
        (.opening t' :: (inner ++ .closing name :: (s ++ more))) =
        run ⟨⟨t'.name, t'.attributes, []⟩ :: ⟨t.name, t.attributes, children⟩ :: opened, root⟩
          (inner ++ .closing name :: (s ++ more)) := rfl
    have hclose : run ⟨⟨t'.name, t'.attributes, [] ++ children'⟩ ::
          ⟨t.name, t.attributes, children⟩ :: opened, root⟩ (.closing name :: (s ++ more)) =
        run ⟨⟨t.name, t.attributes, children ++ [⟨t'.name, t'.attributes, children'⟩]⟩ :: opened,
          root⟩ (s ++ more) := rfl
    rw [List.cons_append, List.append_assoc, List.cons_append, hopen, ihInside, hclose, ih,
      List.append_assoc, List.singleton_append]

/-- The events of an element outside of any other finish it there. -/
theorem run_element {e : Element} (h : Written [e] s) (root : Option Element) (more : List Event) :
    run ⟨[], root⟩ (s ++ more) = finish ⟨[], root⟩ e >>= fun b => b.run more := by
  cases h with
  | empty t rest =>
    cases rest
    rfl
  | @element t name children _ inner _ inside rest =>
    cases rest
    have hopen : run ⟨[], root⟩ (.opening t :: (inner ++ .closing name :: more)) =
        run ⟨[⟨t.name, t.attributes, []⟩], root⟩ (inner ++ .closing name :: more) := rfl
    rw [List.cons_append, List.append_assoc, List.singleton_append, hopen, run_written inside]
    rfl

/-- Events that lead to a builder are run to it. -/
theorem Holds.run_eq (h : b.Holds s) : run {} s = .ok b := by
  induction h with
  | @outside root s before =>
    cases root with
    | none =>
      cases before
      rfl
    | some e =>
      have hrun := run_element before none []
      rwa [List.append_nil] at hrun
  | @inside t opened children root s inner _ within ih =>
    have hopen : run ⟨opened, root⟩ (.opening t :: (inner ++ [])) =
        run ⟨⟨t.name, t.attributes, []⟩ :: opened, root⟩ (inner ++ []) := rfl
    rw [run_append, ih, ← List.append_nil inner]
    exact hopen.trans (run_written within t [] opened root [])

theorem Holds.finish {e : Element} {s' : List Event} (h : b.Holds s) (he : Written [e] s')
    (hb : b.finish e = .ok b') : b'.Holds (s ++ s') := by
  cases h with
  | @outside root _ before =>
    cases root with
    | none =>
      cases before
      cases hb
      exact .outside he
    | some root => cases hb
  | @inside t opened children root s inner around within =>
    cases hb
    rw [List.append_assoc, List.cons_append]
    exact .inside t around (within.append he)

theorem Holds.of_finish_error {e : Element} {s' : List Event} {err : Error} (h : b.Holds s)
    (he : Written [e] s') (hb : b.finish e = .error err) :
    err = .secondRoot e.tag ∧ ∃ root, Written [root, e] (s ++ s') := by
  cases h with
  | @outside root _ before =>
    cases root with
    | none => cases hb
    | some root =>
      cases hb
      exact ⟨rfl, root, before.append he⟩
  | inside => cases hb

theorem Holds.written {root : Option Element} (h : Holds ⟨[], root⟩ s) : Written root.toList s := by
  cases h with
  | outside before => exact before

/-- One event more leads one step further. -/
theorem Holds.step {e : Event} (h : b.Holds s) (he : e ≠ .other) (hb : b.step e = .ok b') :
    b'.Holds (s ++ [e]) := by
  cases e with
  | opening t =>
    cases hb
    exact .inside t h .nil
  | empty t => exact h.finish (.empty t .nil) hb
  | other => exact absurd rfl he
  | closing name =>
    cases h with
    | outside => cases hb
    | @inside t opened children root s inner around within =>
      have helement : Written [⟨t.name, t.attributes, children⟩]
          (.opening t :: (inner ++ [.closing name])) := .element t name within .nil
      simpa using around.finish helement hb

/-- An event that is refused comes too late or too early for a tree. -/
theorem Holds.rejected {e : Event} {err : Error} {stream : Stream} {q : List Event} (h : b.Holds s)
    (hb : b.step e = .error err) (split : stream.markup = s ++ e :: q) : stream.Rejected err := by
  cases e with
  | opening t => cases hb
  | other => cases hb
  | empty t =>
    obtain ⟨rfl, root, hroot⟩ := h.of_finish_error (.empty t .nil) hb
    exact .secondRoot hroot (by simpa using split)
  | closing name =>
    cases h with
    | outside before =>
      cases hb
      exact .strayClose before split
    | @inside t opened children root s inner around within =>
      have helement : Written [⟨t.name, t.attributes, children⟩]
          (.opening t :: (inner ++ [.closing name])) := .element t name within .nil
      obtain ⟨rfl, root, hroot⟩ := around.of_finish_error helement hb
      exact .secondRoot hroot (by simpa using split)

/-- A run leads where its events lead, or meets one that is refused. -/
theorem Holds.run_cases (h : b.Holds s) {s' : List Event} (hs' : .other ∉ s') :
    (∃ b', b.run s' = .ok b' ∧ b'.Holds (s ++ s')) ∨
      ∃ err, b.run s' = .error err ∧
        ∀ stream : Stream, stream.markup = s ++ s' → stream.Rejected err := by
  induction s' generalizing b s with
  | nil => exact .inl ⟨b, rfl, by rwa [List.append_nil]⟩
  | cons e s' ih =>
    have he : e ≠ .other := fun he => hs' (he ▸ List.mem_cons_self)
    cases hstep : b.step e with
    | error err =>
      refine .inr ⟨err, ?_, fun stream split => h.rejected hstep split⟩
      rw [run, hstep]
      rfl
    | ok b' =>
      have hrun : b.run (e :: s') = b'.run s' := by
        rw [run, hstep]
        rfl
      have hrest := ih (h.step he hstep) fun hmem => hs' (List.mem_cons_of_mem _ hmem)
      rwa [List.append_assoc, List.singleton_append, ← hrun] at hrest

/-! ### Open elements -/

theorem Holds.begun (h : b.Holds s) :
    Begun (b.opened.map fun e => ⟨e.tag, e.attributes⟩) s := by
  induction h with
  | outside before => exact .outside before
  | inside t _ within ih => exact .inside t ih within

theorem exists_holds_of_begun {tags : List Tag} (h : Begun tags s) :
    ∃ b : Builder, b.Holds s ∧ b.opened.map (fun e => (⟨e.tag, e.attributes⟩ : Tag)) = tags := by
  induction h with
  | outside before => exact ⟨_, .outside before, rfl⟩
  | inside t _ within ih =>
    obtain ⟨⟨opened, root⟩, hb, htags⟩ := ih
    exact ⟨_, .inside t hb within, congrArg (t :: ·) htags⟩

end Builder

/-! ### Streams -/

namespace Stream

variable {s : Stream} {b : Builder} {e : Error} {t : Element}

theorem run_markup (s : Stream) (b : Builder) : b.run s.markup = b.run s.events :=
  b.run_filter s.events

theorem ofStream_of_holds (h : b.Holds s.markup) :
    Element.ofStream s =
      match s.fault with
      | some e => .error e
      | none => b.tree := by
  rw [Element.ofStream, ← run_markup, h.run_eq]
  rfl

theorem ofStream_of_error (h : Builder.run {} s.markup = .error e) :
    Element.ofStream s = .error e := by
  rw [Element.ofStream, ← run_markup, h]
  rfl

theorem Rejected.ofStream_eq (h : s.Rejected e) : Element.ofStream s = .error e := by
  cases h with
  | @strayClose root p q name before split =>
    apply ofStream_of_error
    rw [split, Builder.run_append, (Builder.Holds.outside before).run_eq]
    rfl
  | @secondRoot first second p q before split =>
    obtain ⟨p, p', rfl, hfirst, hsecond⟩ := before.exists_append
    have houtside : Builder.Holds ⟨[], some first⟩ p := .outside hfirst
    apply ofStream_of_error
    rw [split, List.append_assoc, Builder.run_append, houtside.run_eq]
    exact Builder.run_element hsecond _ _
  | @unclosed t tags begun complete =>
    obtain ⟨⟨opened, root⟩, hb, htags⟩ := Builder.exists_holds_of_begun begun
    obtain ⟨top, rest, rfl, rfl, -⟩ := List.map_eq_cons_iff.1 htags
    rw [ofStream_of_holds hb, complete]
    rfl
  | noRoot nothing complete =>
    have hnothing : Builder.Holds {} s.markup := .outside (nothing ▸ .nil)
    rw [ofStream_of_holds hnothing, complete]
    rfl
  | fault begun stopped =>
    obtain ⟨b, hb, -⟩ := Builder.exists_holds_of_begun begun
    rw [ofStream_of_holds hb, stopped]

theorem ofStream_of_written (h : Written [t] s.markup) (complete : s.fault = none) :
    Element.ofStream s = .ok t := by
  have houtside : Builder.Holds ⟨[], some t⟩ s.markup := .outside h
  rw [ofStream_of_holds houtside, complete]
  rfl

/-- A stream is one tree, or there is a reason why not. -/
theorem written_or_rejected (s : Stream) :
    (∃ t, s.fault = none ∧ Written [t] s.markup) ∨ ∃ e, s.Rejected e := by
  have hother : Event.other ∉ s.markup := by simp [markup]
  have hstart : Builder.Holds {} [] := .outside .nil
  rcases hstart.run_cases hother with ⟨b, -, hb⟩ | ⟨e, -, he⟩
  · obtain ⟨opened, root⟩ := b
    rw [List.nil_append] at hb
    cases hfault : s.fault with
    | some e => exact .inr ⟨e, .fault hb.begun hfault⟩
    | none =>
      cases opened with
      | cons top rest => exact .inr ⟨_, .unclosed hb.begun hfault⟩
      | nil =>
        cases root with
        | some t => exact .inl ⟨t, rfl, hb.written⟩
        | none => exact .inr ⟨_, .noRoot hb.written.nothing hfault⟩
  · exact .inr ⟨e, he s rfl⟩

/-- A stream gives a tree exactly if its events are those of the tree and reading them met no
fault. -/
theorem ofStream_eq_ok_iff : Element.ofStream s = .ok t ↔ s.fault = none ∧ Written [t] s.markup := by
  refine ⟨fun h => ?_, fun h => ofStream_of_written h.2 h.1⟩
  rcases s.written_or_rejected with ⟨u, hfault, hu⟩ | ⟨e, he⟩
  · rw [ofStream_of_written hu hfault] at h
    cases h
    exact ⟨hfault, hu⟩
  · rw [he.ofStream_eq] at h
    cases h

theorem ofStream_eq_error_iff : Element.ofStream s = .error e ↔ s.Rejected e := by
  refine ⟨fun h => ?_, Rejected.ofStream_eq⟩
  rcases s.written_or_rejected with ⟨u, hfault, hu⟩ | ⟨e', he⟩
  · rw [ofStream_of_written hu hfault] at h
    cases h
  · rw [he.ofStream_eq] at h
    cases h
    exact he

end Stream

/-! ### Reading -/

/-- Reading gives no event, or gives one and goes on behind it. -/
theorem streamFrom_cases (opened : OpenNames) (place : Nat) (s : List Char) :
    (streamFrom opened place s).events = [] ∨
      ∃ (k : Construct) (opened' : OpenNames) (place' : Nat) (content rest : List Char)
        (event : Event), rest.length + 2 ≤ s.length ∧
        k.event opened place' content = .ok (event, opened') ∧
        (streamFrom opened place s).events = event :: (streamFrom opened' place' rest).events := by
  rw [streamFrom]
  split
  · exact .inl rfl
  · rename_i c body hbody
    cases hk : Construct.begins body with
    | none => exact .inl rfl
    | some k =>
      dsimp only
      split
      · exact .inl rfl
      · rename_i content rest hsplit
        split
        · exact .inl rfl
        · rename_i event opened' hevent
          have hlen := Construct.length_of_split? hsplit
          have hlen' := (List.dropWhile_suffix (l := s) (· ≠ '<')).length_le
          rw [hbody, List.length_cons] at hlen'
          exact .inr ⟨k, opened', _, content, rest, event, by omega, hevent, rfl⟩

theorem exists_of_map_ok {ε α β : Type} {x : Except ε α} {f : α → β} {b : β}
    (h : x.map f = .ok b) : ∃ a, x = .ok a ∧ f a = b := by
  cases x with
  | error e => cases h
  | ok a => exact ⟨a, rfl, Except.ok.inj h⟩

theorem Tag.name_of_ofContent {content : List Char} {t : Tag} (h : Tag.ofContent content = .ok t) :
    t.name = localPart (tagName content) := by
  rw [Tag.ofContent] at h
  cases hattributes : attributesFrom (Text.byteCount content) []
      (content.dropWhile (!isBlank ·)) with
  | error e =>
    rw [hattributes] at h
    cases h
  | ok attributes =>
    rw [hattributes] at h
    cases h
    rfl

variable {opened opened' : OpenNames} {place : Nat} {content : List Char} {event : Event}
  {s : List Event}

/-- The event of a tag keeps the closing tags paired. -/
theorem Paired.of_tagEvent (h : tagEvent opened place content = .ok (event, opened'))
    (hs : Paired (opened'.map localPart) s) : Paired (opened.map localPart) (event :: s) := by
  unfold tagEvent at h
  split at h
  · dsimp only at h
    split at h
    · cases h
    · split at h
      · rename_i htop
        cases h
        exact ⟨congrArg localPart htop.symm, hs⟩
      · cases h
  · split at h
    · obtain ⟨t, -, he⟩ := exists_of_map_ok h
      cases he
      exact hs
    · obtain ⟨t, ht, he⟩ := exists_of_map_ok h
      cases he
      rwa [Paired, Tag.name_of_ofContent ht]

theorem Construct.event_eq_other {k : Construct} (hk : k ≠ .tag)
    (h : k.event opened place content = .ok (event, opened')) :
    event = .other ∧ opened' = opened := by
  cases k with
  | tag => exact absurd rfl hk
  | documentType =>
    simp only [Construct.event] at h
    split at h
    · cases h
    · split at h <;> cases h
      exact ⟨rfl, rfl⟩
  | _ =>
    simp only [Construct.event] at h
    split at h <;> cases h
    exact ⟨rfl, rfl⟩

theorem Paired.of_event {k : Construct} (h : k.event opened place content = .ok (event, opened'))
    (hs : Paired (opened'.map localPart) s) : Paired (opened.map localPart) (event :: s) := by
  by_cases hk : k = .tag
  · subst hk
    exact Paired.of_tagEvent h hs
  · obtain ⟨rfl, rfl⟩ := Construct.event_eq_other hk h
    exact hs

/-- The reader lets a closing tag pass only if it has the name of the innermost open tag. -/
theorem paired_streamFrom (opened : OpenNames) (place : Nat) (s : List Char) :
    Paired (opened.map localPart) (streamFrom opened place s).events := by
  induction hn : s.length using Nat.strongRecOn generalizing opened place s with
  | _ n ih =>
    rcases streamFrom_cases opened place s with h | ⟨k, opened', place', content, rest, event, hlen,
      hevent, h⟩
    · rw [h, Paired]
      trivial
    · rw [h]
      exact Paired.of_event hevent (ih rest.length (by omega) opened' place' rest rfl)

/-- Every event takes up two characters at least. -/
theorem length_streamFrom_le (opened : OpenNames) (place : Nat) (s : List Char) :
    2 * (streamFrom opened place s).events.length ≤ s.length := by
  induction hn : s.length using Nat.strongRecOn generalizing opened place s with
  | _ n ih =>
    rcases streamFrom_cases opened place s with h | ⟨k, opened', place', content, rest, event, hlen,
      hevent, h⟩
    · rw [h]
      exact Nat.zero_le _
    · have hrest := ih rest.length (by omega) opened' place' rest rfl
      rw [h, List.length_cons]
      omega

theorem Paired.filter {names : List String} (h : Paired names s) :
    Paired names (s.filter (· ≠ .other)) := by
  induction names, s using Paired.induct with
  | case1 names => exact h
  | case2 names t s ih => exact ih h
  | case3 names t s ih => exact ih h
  | case4 names s ih => exact ih h
  | case5 name s => exact h.elim
  | case6 top names name s ih => exact ⟨h.1, ih h.2⟩

theorem length_withoutMark_le (s : List Char) : (Text.withoutMark s).length ≤ s.length := by
  cases s with
  | nil => exact Nat.le_refl _
  | cons c s =>
    rw [Text.withoutMark]
    split <;> simp

end Xml

namespace Document

open Xml (Stream Written Paired)

/-- A text is a document exactly if its events are those of one tree, whose tags, attributes and
children they give in order; else it is refused under its label, for a reason that its events have.
This holds of any events, with or without a fault after them. From a text come only events in which
each closing tag has the name of the tag that it closes, and no more than half as many as there are
characters, so that reading it ends. -/
theorem parse_iff_written :
    (∀ s : Stream, (∀ t, Xml.Element.ofStream s = .ok t ↔ s.fault = none ∧ Written [t] s.markup) ∧
      ∀ e, Xml.Element.ofStream s = .error e ↔ s.Rejected e) ∧
    ∀ label text, (∀ d, parse label text = .ok d ↔ d.path = label ∧
        (Stream.ofText text).fault = none ∧ Written [d.root] (Stream.ofText text).markup) ∧
      (∀ e, parse label text = .error e ↔
        e.label = label ∧ (Stream.ofText text).Rejected e.cause) ∧
      Paired [] (Stream.ofText text).markup ∧
      2 * (Stream.ofText text).events.length ≤ text.toList.length := by
  refine ⟨fun s => ⟨fun t => Stream.ofStream_eq_ok_iff, fun e => Stream.ofStream_eq_error_iff⟩,
    fun label text => ⟨?_, ?_, ?_, ?_⟩⟩
  · rintro ⟨path, root⟩
    rw [← Stream.ofStream_eq_ok_iff, parse, Xml.Element.parse]
    cases Xml.Element.ofStream (.ofText text) with
    | ok t => simp [eq_comm]
    | error e => simp
  · rintro ⟨path, cause⟩
    rw [← Stream.ofStream_eq_error_iff, parse, Xml.Element.parse]
    cases Xml.Element.ofStream (.ofText text) with
    | ok t => simp
    | error e => simp [eq_comm]
  · exact (Xml.paired_streamFrom [] 0 _).filter
  · exact Nat.le_trans (Xml.length_streamFrom_le [] 0 _) (Xml.length_withoutMark_le _)

end Document

end TypeCorpus
