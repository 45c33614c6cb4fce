import PeerExchange.Sql.Database

namespace PeerExchange.Sql

-- What an expression can see besides its scope: the database, and the number bound to the
-- parameter.
structure World where
  database : Database
  parameter : Int

mutual

def Expr.eval (w : World) (scope : Scope) : Expr → Typed
  | .column qualifier name => (scope.get? qualifier name).getD ⟨.null, none⟩
  | .integer n => ⟨.ofInteger n, none⟩
  | .text s => ⟨.text s, none⟩
  | .null => ⟨.null, none⟩
  | .typedNull type => ⟨.null, some type⟩
  | .param _ => ⟨.integer w.parameter, none⟩
  | .binary op left right => ⟨op.apply (left.eval w scope) (right.eval w scope), none⟩
  | .call f args => ⟨f.apply (Expr.evalAll w scope args), none⟩
  | .cast e type => ⟨(e.eval w scope).value.cast type, some type⟩
  | .concat parts => ⟨concatenate (Expr.evalAll w scope parts), none⟩
  | .nullCase e onNull otherwise =>
    if (e.eval w scope).value = .null then ⟨(onNull.eval w scope).value, none⟩
    else ⟨(otherwise.eval w scope).value, none⟩
  | .exists negated query => ⟨.ofBool ((query.frames w scope).isEmpty == negated), none⟩

def Expr.evalAll (w : World) (scope : Scope) : List Expr → List Value
  | [] => []
  | e :: rest => (e.eval w scope).value :: Expr.evalAll w scope rest

def Expr.allHold (w : World) (scope : Scope) : List Expr → Bool
  | [] => true
  | e :: rest => (e.eval w scope).value.isTrue && Expr.allHold w scope rest

-- The frames of a FROM clause: one row of each table. An outer joined table without a matching row
-- gives a row of nulls.
def Source.frames (w : World) (scope : Scope) (frame : Frame) : List Source → List Frame
  | [] => [frame]
  | .mk table qualifier outer on :: rest =>
    let columns := w.database.columns table
    let items := (w.database.rows table).map (Item.mk qualifier columns)
    let joined :=
      if outer then
        let matching := items.filter fun i => Expr.allHold w ((i :: frame) :: scope) on
        if matching.isEmpty then [⟨qualifier, columns, columns.map fun _ => .null⟩] else matching
      else items
    joined.flatMap fun i => Source.frames w scope (i :: frame) rest

def Select.frames (w : World) (scope : Scope) : Select → List Frame
  | .mk _ _ sources conditions =>
    (Source.frames w scope [] sources).filter fun f => Expr.allHold w (f :: scope) conditions

end

@[simp] theorem Expr.evalAll_eq_map (w : World) (scope : Scope) (es : List Expr) :
    Expr.evalAll w scope es = es.map fun e => (e.eval w scope).value := by
  induction es with
  | nil => simp [Expr.evalAll]
  | cons e rest ih => simp [Expr.evalAll, ih]

@[simp] theorem Expr.allHold_eq_all (w : World) (scope : Scope) (es : List Expr) :
    Expr.allHold w scope es = es.all fun e => (e.eval w scope).value.isTrue := by
  induction es with
  | nil => simp [Expr.allHold]
  | cons e rest ih => simp [Expr.allHold, ih]

namespace Select

def project (w : World) (projection : List Expr) (frame : Frame) : Row :=
  if projection.isEmpty then [.integer 1] else Expr.evalAll w [frame] projection

def projected (w : World) (s : Select) : List Row := (s.frames w []).map (project w s.projection)

def rows (w : World) (s : Select) : List Row :=
  if s.distinct then (s.projected w).eraseDupsBy Row.same else s.projected w

end Select

namespace Query

def united (rows : List Row) : List Row := (rows.reverse.eraseDupsBy Row.same).reverse

def rows (w : World) (q : Query) : List Row :=
  match q.except with
  | some s =>
    let excluded := s.projected w
    united ((q.selects.flatMap (Select.projected w)).filter fun row => !excluded.any row.same)
  | none =>
    if q.all || q.selects.length ≤ 1 then q.selects.flatMap (Select.rows w)
    else united (q.selects.flatMap (Select.projected w))

end Query

end PeerExchange.Sql
