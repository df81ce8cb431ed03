/-! Values with the events noted on the way to them, oldest first. Two computations in a row note
the first one's events before the second one's, and what is noted never changes a value. -/

namespace TypeCorpus

/-- A value with the events that were noted while it was computed. -/
structure Traced (ε α : Type) where
  value : α
  events : List ε := []

namespace Traced

variable {ε : Type}

/-- Notes one event. -/
def note (e : ε) : Traced ε Unit := ⟨(), [e]⟩

instance : Monad (Traced ε) where
  pure a := ⟨a, []⟩
  bind x f := ⟨(f x.value).value, x.events ++ (f x.value).events⟩

/-- The same value with each event seen in another way. -/
def mapEvents {δ α : Type} (f : ε → δ) (x : Traced ε α) : Traced δ α := ⟨x.value, x.events.map f⟩

@[simp] theorem value_pure {α : Type} (a : α) : (pure a : Traced ε α).value = a := rfl

@[simp] theorem events_pure {α : Type} (a : α) : (pure a : Traced ε α).events = [] := rfl

@[simp] theorem value_bind {α β : Type} (x : Traced ε α) (f : α → Traced ε β) :
    (x >>= f).value = (f x.value).value := rfl

@[simp] theorem events_bind {α β : Type} (x : Traced ε α) (f : α → Traced ε β) :
    (x >>= f).events = x.events ++ (f x.value).events := rfl

@[simp] theorem value_map {α β : Type} (f : α → β) (x : Traced ε α) :
    (f <$> x).value = f x.value := rfl

@[simp] theorem events_map {α β : Type} (f : α → β) (x : Traced ε α) :
    (f <$> x).events = x.events :=
  List.append_nil _

@[simp] theorem value_mapEvents {δ α : Type} (f : ε → δ) (x : Traced ε α) :
    (x.mapEvents f).value = x.value := rfl

@[simp] theorem events_mapEvents {δ α : Type} (f : ε → δ) (x : Traced ε α) :
    (x.mapEvents f).events = x.events.map f := rfl

end Traced

end TypeCorpus
