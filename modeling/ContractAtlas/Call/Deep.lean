import ContractAtlas.Program.Declaration

/-! Search through the functions that a function calls, by name. -/
namespace ContractAtlas.Function

/-- The loaded functions that a body calls: for each called name the first function so named. -/
def callees (all : List Function) (f : Function) : List Function :=
  f.calledNames.filterMap fun name => all.find? (·.name == name)

end ContractAtlas.Function
