/- Cil/Flavor
   digest: The kinds of declarations and the symbol tables that hold them. -/

set_option autoImplicit false
set_option relaxedAutoImplicit false

namespace Cil

/-- The declarative part of `cil_flavor`, the kinds of nodes that carry a name. -/
inductive Flavor
  | block | macroDef | optional | bool | tunable | perm | mapPerm | common | kernelClass | mapClass
  | classpermission | user | role | roleattribute | type | typeattribute | typealias
  | sens | sensalias | cat | catset | catalias | level | levelrange | sid | name | context
  | ipaddr | policycap
  deriving DecidableEq, Repr

/-- `cil_sym_index`. -/
inductive SymIndex
  | blocks | users | roles | types | commons | classes | classpermsets | bools | tunables
  | sens | cats | sids | contexts | levels | levelranges | policycaps | ipaddrs | names | perms
  deriving DecidableEq, Repr

/-- `cil_flavor_to_symtab_index`. -/
def flavorToSymtabIndex : Flavor → SymIndex
  | .block | .macroDef | .optional => .blocks
  | .bool => .bools
  | .tunable => .tunables
  | .perm | .mapPerm => .perms
  | .common => .commons
  | .kernelClass | .mapClass => .classes
  | .classpermission => .classpermsets
  | .user => .users
  | .role | .roleattribute => .roles
  | .type | .typealias | .typeattribute => .types
  | .sens | .sensalias => .sens
  | .cat | .catset | .catalias => .cats
  | .level => .levels
  | .levelrange => .levelranges
  | .sid => .sids
  | .name => .names
  | .context => .contexts
  | .ipaddr => .ipaddrs
  | .policycap => .policycaps

end Cil
