/-! Tables by name that keep the order in which names were added. -/
namespace JsClass

abbrev Assoc (β : Type) := List (String × β)

namespace Assoc

variable {β : Type}

/-- Sets the value at a name, in place or at the end. -/
def put (name : String) (value : β) : Assoc β → Assoc β
  | [] => [(name, value)]
  | (k, v) :: rest => if k = name then (k, value) :: rest else (k, v) :: put name value rest

def erase (name : String) (table : Assoc β) : Assoc β := table.filter (·.1 != name)

end Assoc

end JsClass
